import CodeAtlas.Graph.Filter
import CodeAtlas.Json.Writer

/-!
# Graphs as text

* `Graph.dot`: the graph in the DOT language, edges of containment dashed.
* `Graph.html`: the graph as a web page.
* `Graph.json`: the record of the graph as indented JSON text.
-/

namespace CodeAtlas

/-! ## Graphs in the DOT language -/

/-- A backslash in front of each quote. -/
def escapeQuotes (s : String) : String :=
  String.ofList (s.toList.flatMap fun c => if c = '"' then ['\\', '"'] else [c])

/-- The text as a string in quotes. -/
def dotString (s : String) : String := "\"" ++ escapeQuotes s ++ "\""

/-- The line of a node. -/
def Node.dotLine (n : Node) : String :=
  "  " ++ dotString n.id ++ " [label=" ++ dotString (n.kind ++ "\\n" ++ n.name) ++ "];"

/-- The line of an edge. -/
def Edge.dotLine (e : Edge) : String :=
  let style := if e.kind == containment then " style=\"dashed\"" else ""
  "  " ++ dotString e.source ++ " -> " ++ dotString e.target ++ " [label=" ++ dotString e.kind ++
    style ++ "];"

/-- The graph around a focus in the DOT language, without edges to unknown nodes. -/
def Graph.dot (g : Graph) (focus : String) : String :=
  let part := g.focused focus
  let known := part.ids
  let edges := part.edges.filter fun e => known.contains e.source && known.contains e.target
  Text.joinWith "\n"
    (["digraph CodeIntel \x7b", "  rankdir=LR;"] ++ part.nodes.map Node.dotLine ++
      edges.map Edge.dotLine ++ ["\x7d"])

/-! ## Graphs as web pages -/

/-- The color of a kind of node. -/
def nodeColor (kind : String) : String :=
  match kind with
  | "file" | "module" => "#4e79a7"
  | "class" => "#f28e2b"
  | "interface" => "#edc948"
  | "function" => "#59a14f"
  | "method" => "#76b7b2"
  | "variable" => "#bab0ac"
  | _ => "#9c755f"

/-- The shape of a kind of node. -/
def nodeShape (kind : String) : String :=
  if kind == "file" || kind == "module" then "box" else "dot"

/-- The node as data of the page. -/
def Node.viewed (n : Node) : Json :=
  .obj <|
    [("id", .str n.id), ("label", .str n.name), ("title", .str (n.kind ++ ": " ++ n.path)),
      ("color", .str (nodeColor n.kind)), ("shape", .str (nodeShape n.kind))] ++
    match n.position with
    | some p => [("x", .ofAmount p.x), ("y", .ofAmount p.y)]
    | none => []

/-- The edge as data of the page. -/
def Edge.viewed (e : Edge) : Json :=
  .obj
    [("from", .str e.source), ("to", .str e.target), ("label", .str e.kind), ("arrows", .str "to"),
      ("dashes", .bool (e.kind == containment)), ("value", .ofAmount e.weight)]

/-- The graph as data of the page. -/
def Graph.viewed (g : Graph) : Json :=
  .obj [("nodes", .arr (g.nodes.map Node.viewed)), ("edges", .arr (g.edges.map Edge.viewed))]

/-- The lines in front of the data. -/
def pageHead (nodes edges : Nat) : List String :=
  ["<!doctype html>",
    "<html>",
    "<head>",
    "  <meta charset=\"utf-8\" />",
    "  <title>CodeIntel Dependency Graph</title>",
    "  <script src=\"https://unpkg.com/vis-network/standalone/umd/vis-network.min.js\"></script>",
    "  <style>",
    "    body \x7b font-family: ui-monospace, SFMono-Regular, Menlo, monospace; margin: 0; \x7d",
    "    header \x7b padding: 10px 16px; border-bottom: 1px solid #ddd; \x7d",
    "    #graph \x7b width: 100vw; height: calc(100vh - 48px); \x7d",
    "  </style>",
    "</head>",
    "<body>",
    "  <header>CodeIntel dependency graph: " ++ natText nodes ++ " nodes, " ++ natText edges ++
      " edges</header>",
    "  <div id=\"graph\"></div>",
    "  <script>"]

/-- The lines behind the data. -/
def pageTail : List String :=
  ["    const hasPositions = data.nodes.length > 0 && data.nodes.every(n => n.x !== undefined);",
    "    new vis.Network(",
    "      document.getElementById('graph'),",
    "      \x7b nodes: new vis.DataSet(data.nodes), edges: new vis.DataSet(data.edges) \x7d,",
    "      \x7b physics: \x7b enabled: !hasPositions \x7d, edges: \x7b font: \x7b size: 9 \x7d \x7d \x7d",
    "    );",
    "  </script>",
    "</body>",
    "</html>",
    ""]

/-- The page around the data. -/
def page (data : String) (nodes edges : Nat) : String :=
  Text.joinWith "\n" (pageHead nodes edges ++ ["    const data = " ++ data ++ ";"] ++ pageTail)

/-- The graph around a focus as a web page. -/
def Graph.html (g : Graph) (focus : String) : String :=
  let part := g.focused focus
  page part.viewed.line part.nodes.length part.edges.length

/-! ## Formats of graphs -/

/-- The graph around a focus as JSON text. -/
def Graph.json (g : Graph) (focus : String) : String := (g.focused focus).record.indented

/-- The formats of graphs. -/
inductive ExportFormat where
  | json
  | dot
  | html
deriving DecidableEq

namespace ExportFormat

/-- The name of a format. -/
def name : ExportFormat → String
  | .json => "json"
  | .dot => "dot"
  | .html => "html"

/-- The format of a name. -/
def ofName? (name : String) : Option ExportFormat :=
  [ExportFormat.json, .dot, .html].find? (·.name == name)

end ExportFormat

/-- The graph around a focus in a format. -/
def Graph.written (g : Graph) (format : ExportFormat) (focus : String) : String :=
  match format with
  | .json => g.json focus
  | .dot => g.dot focus
  | .html => g.html focus

end CodeAtlas
