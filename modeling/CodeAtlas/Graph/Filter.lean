import CodeAtlas.Graph.Statistics

/-!
# Scores, filters and focus

Scores of nodes, the part of a graph that passes a filter, and the part around a text.
-/

namespace CodeAtlas

/-! ## Scores and filters -/

/-- The importance of each node in percent of the highest, if that is positive. -/
def Graph.impactScores {K : Type} [Arith K] (g : Graph) : Option (List (String × K)) :=
  let scores : List (String × K) := g.usualImportance
  let highest : K := Arith.maxWithZero (scores.map (·.2))
  if Arith.int 0 < highest then
    some (scores.map fun (id, score) => (id, Arith.round 2 (score / highest * Arith.int 100)))
  else none

/-- The node with a score. -/
def Node.withImpact (n : Node) (score : Amount) : Node :=
  { n with metrics := { n.metrics with impactScore := score } }

/-- The graph with impact scores. -/
def Graph.scored (g : Graph) : Graph :=
  match (g.impactScores : Option (List (String × Float))) with
  | none => g
  | some scores =>
    { g with nodes := g.nodes.map fun n => n.withImpact (.real (scoreOf scores n.id)) }

/-- Which nodes are kept for their vulnerabilities. -/
inductive Exposure where
  | all
  | affected
  | clean
deriving DecidableEq

namespace Exposure

/-- The name of a choice. -/
def name : Exposure → String
  | .all => "all"
  | .affected => "affected"
  | .clean => "clean"

/-- The choice with this name; all nodes if there is none. -/
def ofName (name : String) : Exposure :=
  if name == "affected" then .affected else if name == "clean" then .clean else .all

/-- The node is kept. -/
def keeps : Exposure → Node → Bool
  | .all, _ => true
  | .affected, n => !n.vulnerabilities.isEmpty
  | .clean, n => n.vulnerabilities.isEmpty

end Exposure

/-- Which nodes and edges are wanted. -/
structure GraphFilter where
  nodeKinds : List String := ["file", "function", "class"]
  edgeKinds : List String := ["imports", "calls", "extends"]
  threshold : Option Amount := none
  exposure : Exposure := .all
  excluded : List String := []
  /-- Parts of paths of which a file has to hold one, if any are given. -/
  included : List String := []

/-- The filter as a record. -/
def GraphFilter.record (f : GraphFilter) : Json :=
  .record
    [("node_types", .strs f.nodeKinds), ("edge_types", .strs f.edgeKinds),
      ("impact_threshold", .ofOption .ofAmount f.threshold),
      ("vulnerability_filter", .str f.exposure.name), ("exclude_patterns", .strs f.excluded),
      ("include_patterns", .strs f.included)]

/-- The node is of a wanted kind and exposure, and has the least score. -/
def GraphFilter.keepsScored {K : Type} [Arith K] (f : GraphFilter) (least : Option K)
    (score : Node → K) (n : Node) : Bool :=
  f.nodeKinds.contains n.kind && (least.all fun least => decide (least ≤ score n)) &&
    f.exposure.keeps n

/-- The node passes the filter. -/
def GraphFilter.keepsNode (f : GraphFilter) (n : Node) : Bool :=
  f.keepsScored (f.threshold.map Amount.computed) (·.metrics.impactScore.computed) n

/-- The nodes kept, with the edges and children among them. -/
def Graph.keeping (g : Graph) (keeps : Node → Bool) (edgeKinds : List String) : Graph :=
  let nodes := g.nodes.filter keeps
  let kept := nodes.map (·.id)
  let edges := g.edges.filter fun e =>
    kept.contains e.source && kept.contains e.target && edgeKinds.contains e.kind
  { nodes := nodes.map fun n => { n with children := n.children.filter kept.contains }
    edges := edges
    metadata :=
      { totalNodes := nodes.length
        totalEdges := edges.length
        maxDepth := g.metadata.maxDepth
        generatedAt := g.metadata.generatedAt } }

theorem Graph.ids_keeping (g : Graph) (keeps : Node → Bool) (edgeKinds : List String) :
    (g.keeping keeps edgeKinds).ids = (g.nodes.filter keeps).map (·.id) := by
  simp only [ids, keeping, List.map_map, Function.comp_def]

/-- The nodes and edges that pass a filter. -/
def Graph.filtered (g : Graph) (f : GraphFilter) : Graph := g.keeping f.keepsNode f.edgeKinds

/-! ## Focus -/

/-- The text is in the id, the name or the path. -/
def Node.mentions (n : Node) (focus : String) : Bool :=
  Text.hasPart n.id focus || Text.hasPart n.name focus || Text.hasPart n.path focus

namespace Graph

/-- The nodes that mention a text. -/
def mentioning (g : Graph) (focus : String) : List String :=
  (g.nodes.filter (·.mentions focus)).map (·.id)

/-- The part around the nodes that mention a text; all if there is none. -/
def focused (g : Graph) (focus : String) : Graph :=
  let centre := g.mentioning focus
  if focus.isEmpty || centre.isEmpty then g
  else
    let edges := g.edges.filter fun e => centre.contains e.source || centre.contains e.target
    let kept := centre ++ edges.flatMap fun e => [e.source, e.target]
    { g with nodes := g.nodes.filter fun n => kept.contains n.id, edges := edges }

end Graph

end CodeAtlas
