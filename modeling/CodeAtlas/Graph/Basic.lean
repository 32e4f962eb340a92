import CodeAtlas.Json.Value
import Std.Data.HashMap

/-!
# Graphs of code elements

Nodes are files, classes, functions and the like; edges say how one uses another. A graph is a list
of nodes and a list of edges. Nothing forbids two nodes with one id or an edge to an unknown id, so
the analyses say what they do with them.
-/

namespace CodeAtlas

/-- The kinds of nodes. -/
def nodeKinds : List String :=
  ["file", "function", "class", "method", "module", "variable", "interface"]

/-- The kinds of edges. -/
def edgeKinds : List String :=
  ["imports", "calls", "extends", "implements", "contains", "references"]

/-- The kind of the edges from an element to the elements inside it. -/
def containment : String := "contains"

/-- A place on the page. -/
structure Position where
  x : Amount
  y : Amount
deriving Inhabited

/-- A known weakness of an element. -/
structure Vulnerability where
  id : String
  severity : String
  title : String
  cwe : Option String := none
  affectedVersions : Option String := none

/-- What is measured of a node. -/
structure Metrics where
  complexity : Amount := .whole 0
  changeFrequency : Amount := .whole 0
  impactScore : Amount := .whole 0
  testCoverage : Option Amount := none
  linesOfCode : Option Amount := none
  cyclomaticComplexity : Option Amount := none
deriving Inhabited

/-- An element of code. -/
structure Node where
  id : String
  kind : String
  name : String
  path : String
  metrics : Metrics := {}
  vulnerabilities : List Vulnerability := []
  startLine : Option Int := none
  endLine : Option Int := none
  language : Option String := none
  parentId : Option String := none
  children : List String := []
  position : Option Position := none
deriving Inhabited

/-- A relation between two elements. -/
structure Edge where
  id : String
  source : String
  target : String
  kind : String
  weight : Amount := .real 1
  lineNumber : Option Int := none
  isCircular : Option Bool := none
  count : Int := 1
deriving Inhabited

/-- The figures and the origin of a graph. -/
structure Metadata where
  totalNodes : Int := 0
  totalEdges : Int := 0
  maxDepth : Int := 0
  rootFile : Option String := none
  generatedAt : String
  filesDiscovered : Int := 0
  filesParsed : Int := 0
  filesSkipped : Int := 0
  enrichmentApplied : Bool := false
deriving Inhabited

/-- Nodes and the edges between them. -/
structure Graph where
  nodes : List Node
  edges : List Edge
  metadata : Metadata
deriving Inhabited

/-- The identity of an edge: source, kind and target joined with colons. -/
def edgeKey (source kind target : String) : String := source ++ ":" ++ kind ++ ":" ++ target

/-- The edge between two nodes. -/
def Edge.between (source target kind : String) (weight : Amount := .real 1)
    (lineNumber : Option Int := none) : Edge where
  id := edgeKey source kind target
  source := source
  target := target
  kind := kind
  weight := weight
  lineNumber := lineNumber

/-- The character may stand in an id. -/
def plainInId (c : Char) : Bool :=
  c.isAlphanum || c == ':' || c == '.' || c == '_' || c == '-'

/-- The id of an element: kind and name, with underscores for other characters. -/
def nodeId (kind name : String) : String :=
  String.ofList ((kind ++ ":" ++ name).toList.map fun c => if plainInId c then c else '_')

namespace Graph

/-- The ids of the nodes. -/
def ids (g : Graph) : List String := g.nodes.map (·.id)

/-- The last node of an id. -/
def node? (g : Graph) (id : String) : Option Node := g.nodes.reverse.find? (·.id == id)

end Graph

/-! ## Graphs as records -/

/-- The position as a record. -/
def Position.record (p : Position) : Json :=
  .record [("x", .ofAmount p.x), ("y", .ofAmount p.y)]

/-- The vulnerability as a record. -/
def Vulnerability.record (v : Vulnerability) : Json :=
  .record
    [("id", .str v.id), ("severity", .str v.severity), ("title", .str v.title),
      ("cwe", .ofOption .str v.cwe), ("affected_versions", .ofOption .str v.affectedVersions)]

/-- The metrics as a record. -/
def Metrics.record (m : Metrics) : Json :=
  .record
    [("complexity", .ofAmount m.complexity), ("change_frequency", .ofAmount m.changeFrequency),
      ("impact_score", .ofAmount m.impactScore),
      ("test_coverage", .ofOption .ofAmount m.testCoverage),
      ("lines_of_code", .ofOption .ofAmount m.linesOfCode),
      ("cyclomatic_complexity", .ofOption .ofAmount m.cyclomaticComplexity)]

/-- The node as a record. -/
def Node.record (n : Node) : Json :=
  .record
    [("id", .str n.id), ("type", .str n.kind), ("name", .str n.name), ("path", .str n.path),
      ("metrics", n.metrics.record),
      ("vulnerabilities", .arr (n.vulnerabilities.map Vulnerability.record)),
      ("start_line", .ofOption .int n.startLine), ("end_line", .ofOption .int n.endLine),
      ("language", .ofOption .str n.language), ("parent_id", .ofOption .str n.parentId),
      ("children", .strs n.children), ("position", .ofOption Position.record n.position)]

/-- The details of an edge. -/
def Edge.details (e : Edge) : Json :=
  .record
    [("line_number", .ofOption .int e.lineNumber), ("is_circular", .ofOption .bool e.isCircular),
      ("count", .int e.count)]

/-- The edge as a record. -/
def Edge.record (e : Edge) : Json :=
  .record
    [("id", .str e.id), ("source", .str e.source), ("target", .str e.target), ("type", .str e.kind),
      ("weight", .ofAmount e.weight), ("metadata", e.details)]

/-- The figures as a record. -/
def Metadata.record (m : Metadata) : Json :=
  .record
    [("total_nodes", .int m.totalNodes), ("total_edges", .int m.totalEdges),
      ("max_depth", .int m.maxDepth), ("root_file", .ofOption .str m.rootFile),
      ("generated_at", .str m.generatedAt), ("files_discovered", .int m.filesDiscovered),
      ("files_parsed", .int m.filesParsed), ("files_skipped", .int m.filesSkipped),
      ("enrichment_applied", .bool m.enrichmentApplied)]

/-- The graph as a record. -/
def Graph.record (g : Graph) : Json :=
  .record
    [("nodes", .arr (g.nodes.map Node.record)), ("edges", .arr (g.edges.map Edge.record)),
      ("metadata", g.metadata.record)]

/-! ## Links between nodes

Edges of containment are left out of the dependencies. -/

/-- The targets of a source, each once, in the order of the pairs. -/
def targetsIn (pairs : List (String × String)) (source : String) : List String :=
  ((pairs.filter (·.1 == source)).map (·.2)).eraseDups

/-- The list with an item, unless it is there. -/
def addOnce (xs : List String) (x : String) : List String := if x ∈ xs then xs else xs ++ [x]

/-- The list without an item. -/
def without (xs : List String) (x : String) : List String := xs.filter (· ≠ x)

theorem length_without_lt {xs : List String} {x : String} (h : x ∈ xs) :
    (without xs x).length < xs.length := by
  rw [without, List.length_filter_lt_length_iff_exists]
  exact ⟨x, h, by simp⟩

/-- An index from sources to targets. -/
structure Links where
  table : Std.HashMap String (List String)
deriving Inhabited

namespace Links

/-- An index without pairs. -/
def empty : Links := ⟨∅⟩

/-- One pair more. -/
def add (links : Links) (pair : String × String) : Links :=
  ⟨links.table.insert pair.1 (addOnce (links.table.getD pair.1 []) pair.2)⟩

/-- The index of pairs. -/
def ofPairs (pairs : List (String × String)) : Links := pairs.foldl add empty

/-- The targets of a source. -/
def targets (links : Links) (source : String) : List String := links.table.getD source []

end Links

namespace Graph

/-- Both ends of the edge are nodes. -/
def holds (g : Graph) (e : Edge) : Bool := g.ids.contains e.source && g.ids.contains e.target

/-- The pairs that edges of any kind join. -/
def connections (g : Graph) : List (String × String) :=
  (g.edges.filter g.holds).map fun e => (e.source, e.target)

/-- What depends on what. -/
def dependencies (g : Graph) : List (String × String) :=
  ((g.edges.filter g.holds).filter (·.kind != containment)).map fun e => (e.source, e.target)

/-- What a node depends on. -/
def ahead (g : Graph) : Links := .ofPairs g.dependencies

/-- What depends on a node. -/
def behind (g : Graph) : Links := .ofPairs (g.dependencies.map Prod.swap)

end Graph

end CodeAtlas
