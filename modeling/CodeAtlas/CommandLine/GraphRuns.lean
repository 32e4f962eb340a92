import CodeAtlas.CommandLine.Command
import CodeAtlas.CommandLine.Screen
import CodeAtlas.Export.Text

/-!
# Runs about graphs

* `graphOptions`: the options of a build, checked.
* `builtGraph`: the graph, or a complaint.
* `GraphCommand.run`, `runStats`, `runCycles`, `ExportCommand.run`: the commands.
-/

namespace CodeAtlas

/-- The options of a graph with a known layout. -/
def graphOptions (root layout : String) : Run BuildOptions := do
  let names := LayoutKind.all.map (·.name)
  unless names.contains layout do
    throw (.badValue ("Choose from: " ++ Text.joinWith ", " names) "--layout")
  return { rootFile := root, layout := layout }

/-- The options that a command asks for. -/
def GraphCommand.options (c : GraphCommand) : Run BuildOptions := do
  let options ← graphOptions c.root c.layout
  Run.checkChoices c.nodeKinds CodeAtlas.nodeKinds "--node-type"
  Run.checkChoices c.edgeKinds CodeAtlas.edgeKinds "--edge-type"
  let filter := options.filter
  return { options with
    depth := c.depth
    external := c.external
    filter := { filter with
      nodeKinds := if c.nodeKinds.isEmpty then filter.nodeKinds else c.nodeKinds
      edgeKinds := if c.edgeKinds.isEmpty then filter.edgeKinds else c.edgeKinds } }

/-- The graph of the repository. -/
def builtGraph (s : Surroundings) (repo : Path) (options : BuildOptions) : Run Graph := do
  match ((← Run.workspace).buildGraph repo s.knowledge options s.now).graph with
  | .ok g => return g
  | .error e@(.rootNotFound _) => Run.complain e.message
  | .error e => throw (.broken (.build e))

/-! ## Summaries -/

/-- The figures of a graph in a sentence. -/
def Metadata.sentence (m : Metadata) : String :=
  "[bold]" ++ intText m.totalNodes ++ "[/bold] nodes · [bold]" ++ intText m.totalEdges ++
    "[/bold] edges · containment depth " ++ intText m.maxDepth ++ "\nfiles: " ++
    intText m.filesDiscovered ++ " discovered, " ++ intText m.filesParsed ++ " parsed, " ++
    intText m.filesSkipped ++ " skipped · enrichment: " ++
    (if m.enrichmentApplied then "applied" else "unavailable")

/-- How often each text occurs. -/
def tally (texts : List String) : List (String × Nat) :=
  (texts.eraseDups.mergeSort fun a b => decide (a ≤ b)).map fun s => (s, texts.count s)

/-- The rows of a tally. -/
def tallyRows (label : String) (texts : List String) : List (List String) :=
  (tally texts).map fun (kind, count) => [label, kind, natText count]

/-- The graph on the screen. -/
def GraphCommand.run (c : GraphCommand) (s : Surroundings) (repo : Path) : Run Unit := do
  let g ← builtGraph s repo (← c.options)
  Run.present (.panel g.metadata.sentence ("📊 Dependency graph: " ++ c.root) "cyan")
  Run.present (.table none ["Kind", "Type", "Count"]
    (tallyRows "node" (g.nodes.map (·.kind)) ++ tallyRows "edge" (g.edges.map (·.kind))))
  if let some output := c.output then
    let path := Path.ofText output
    Run.writeFile path (g.written .json "")
    Run.say ("[green]✓[/green] Graph written to " ++ path.text)

/-! ## Statistics -/

/-- The rows of the figures. -/
def Statistics.rows (f : Statistics Float) : List (List String) :=
  [["node count", natText f.nodeCount], ["edge count", natText f.edgeCount],
    ["density", fixedText 4 f.density], ["avg degree", fixedText 4 f.averageDegree],
    ["max degree", natText f.maxDegree], ["connected components", natText f.connectedComponents],
    ["has cycles", if f.hasCycles then "True" else "False"]]

/-- The first items; a negative number leaves out the last. -/
def topmost {α : Type} (top : Int) (xs : List α) : List α :=
  xs.take (if top < 0 then (xs.length + top).toNat else top.toNat)

/-- The most important nodes in rows. -/
def Graph.rankingRows (g : Graph) (top : Int) : List (List String) :=
  let scores : List (String × Float) := g.importance 0.85 20
  let between : List (String × Float) := g.betweenness
  let ranked := scores.mergeSort fun a b => decide (b.2 ≤ a.2)
  (topmost top ranked).map fun (id, score) =>
    let (name, kind) := match g.node? id with
      | some n => (if n.kind == "file" then n.path else n.name, n.kind)
      | none => ("", "")
    [name, kind, fixedText 4 score, fixedText 3 ((between.lookup id).getD 0)]

/-- The figures on the screen. -/
def runStats (root : String) (top : Int) (s : Surroundings) (repo : Path) : Run Unit := do
  let g ← builtGraph s repo (← graphOptions root "force")
  Run.present (.table (some "Graph statistics") ["Metric", "Value"] g.statistics.rows)
  Run.present (.table (some ("Top " ++ intText top ++ " nodes by importance"))
    ["Node", "Type", "Importance", "Betweenness"] (g.rankingRows top))

/-! ## Cycles -/

/-- The line of a cycle. -/
def cycleLine (cycle : List String) (place : Nat) : String :=
  "[yellow]" ++ natText (place + 1) ++ ".[/yellow] " ++
    Text.joinWith " → " (cycle ++ cycle.take 1)

/-- The line of a component. -/
def componentLine (component : List String) : String :=
  "  • " ++ natText component.length ++ " nodes: " ++
    Text.joinWith ", " (component.mergeSort fun a b => decide (a ≤ b))

/-- The cycles on the screen. -/
def runCycles (root : String) (s : Surroundings) (repo : Path) : Run Unit := do
  let g ← builtGraph s repo (← graphOptions root "force")
  if g.cycles.isEmpty then Run.say "[green]✓[/green] No circular dependencies found."
  for (cycle, place) in g.cycles.zipIdx do
    Run.say (cycleLine cycle place)
  unless g.components.isEmpty do
    Run.say ("\n[bold]Strongly connected components (" ++ natText g.components.length ++ ")[/bold]")
    for component in g.components do
      Run.say (componentLine component)

/-! ## Exports -/

/-- The graph written to a file. -/
def ExportCommand.run (c : ExportCommand) (s : Surroundings) (repo : Path) : Run Unit := do
  match ExportFormat.ofName? c.format with
  | none => throw (.badValue "Choose from: json, dot, html" "--format")
  | some format =>
    let g ← builtGraph s repo (← graphOptions c.root c.layout)
    let path := Path.ofText c.output
    Run.writeFile path (g.written format c.focus)
    Run.say ("[green]✓[/green] Exported " ++ String.ofList (format.name.toList.map Text.capital) ++
      " to " ++ path.text)

end CodeAtlas
