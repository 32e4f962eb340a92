import CodeAtlas.Main
import CodeAtlas.Record.Kinds
import CodeAtlas.Proofs.Advice.Completion
import CodeAtlas.Proofs.Advice.Health
import CodeAtlas.Proofs.Assembly.Enrichment
import CodeAtlas.Proofs.Assembly.Failure
import CodeAtlas.Proofs.Assembly.FileCounts
import CodeAtlas.Proofs.Assembly.SymbolNames
import CodeAtlas.Proofs.Export.DotTokens
import CodeAtlas.Proofs.Export.PageScript
import CodeAtlas.Proofs.Files.EntryOrder
import CodeAtlas.Proofs.Graph.Betweenness
import CodeAtlas.Proofs.Graph.Components
import CodeAtlas.Proofs.Graph.Containment
import CodeAtlas.Proofs.Graph.Focus
import CodeAtlas.Proofs.Graph.ImpactScores
import CodeAtlas.Proofs.Graph.Parents
import CodeAtlas.Proofs.Graph.Statistics
import CodeAtlas.Proofs.Impact.Asking
import CodeAtlas.Proofs.Impact.RingIds
import CodeAtlas.Proofs.Impact.Spelling
import CodeAtlas.Proofs.Impact.WholeWord
import CodeAtlas.Proofs.Layout.Inside
import CodeAtlas.Proofs.Layout.ListedOrder
import CodeAtlas.Proofs.Settings.Saving
import CodeAtlas.Proofs.Source.Branches
import CodeAtlas.Proofs.Source.Calls
