import CodeAtlas.Graph.Search

/-!
# Graphs under construction

A draft takes nodes and edges in any order. A node added again replaces the one with its id and
keeps its place; an edge whose key is there adds its weight and count to that edge. Weights of
which one is whole and the other is real may have no sum. The ends of a new edge are entered into
indices of what depends on what and of what contains what.
-/

namespace CodeAtlas

/-- A graph in the making, with its indices. -/
structure Draft where
  nodes : List Node := []
  edges : List Edge := []
  ahead : Links := .empty
  behind : Links := .empty
  inside : Links := .empty
deriving Inhabited

namespace Draft

/-- The id is known. -/
def has (d : Draft) (id : String) : Bool := d.nodes.any (·.id == id)

/-- The node of an id. -/
def node? (d : Draft) (id : String) : Option Node := d.nodes.find? (·.id == id)

/-- A node added, or put in the place of the one with its id. -/
def addNode (d : Draft) (node : Node) : Draft :=
  if d.has node.id then
    { d with nodes := d.nodes.map fun n => if n.id == node.id then node else n }
  else { d with nodes := d.nodes ++ [node] }

/-- A node changed. -/
def changeNode (d : Draft) (id : String) (change : Node → Node) : Draft :=
  { d with nodes := d.nodes.map fun n => if n.id == id then change n else n }

/-- The sum of two weights. -/
def weightSum (stored added : Amount) : Except NumberFault Amount :=
  (stored.computed + added.computed).amount

/-- The edge with another's weight and count added, if they can be. -/
def merged (stored added : Edge) : Edge :=
  match weightSum stored.weight added.weight with
  | .ok weight => { stored with weight := weight, count := stored.count + added.count }
  | .error _ => stored

/-- The key of an edge. -/
def keyOf (edge : Edge) : String := edgeKey edge.source edge.kind edge.target

/-- The ends of an edge noted in the indices. -/
def link (d : Draft) (edge : Edge) : Draft :=
  if edge.kind == containment then { d with inside := d.inside.add (edge.source, edge.target) }
  else
    { d with
      ahead := d.ahead.add (edge.source, edge.target)
      behind := d.behind.add (edge.target, edge.source) }

/-- An edge added, or counted under its key. -/
def addEdge (d : Draft) (edge : Edge) : Draft :=
  let key := keyOf edge
  if d.edges.any (·.id == key) then
    { d with edges := d.edges.map fun e => if e.id == key then merged e edge else e }
  else { d.link edge with edges := d.edges ++ [{ edge with id := key }] }

/-- Why the weight cannot be added to the stored one, if it cannot. -/
def weightFault? (d : Draft) (edge : Edge) : Option NumberFault :=
  (d.edges.find? (·.id == keyOf edge)).bind fun stored =>
    match weightSum stored.weight edge.weight with
    | .ok _ => none
    | .error fault => some fault

/-- An edge added, if its weight can be. -/
def tryAddEdge (d : Draft) (edge : Edge) : Except NumberFault Draft :=
  match d.weightFault? edge with
  | some fault => .error fault
  | none => .ok (d.addEdge edge)

/-- The targets of a node. -/
def neighbors (d : Draft) (id : String) : List String := d.ahead.targets id

/-- The sources of a node. -/
def incoming (d : Draft) (id : String) : List String := d.behind.targets id

/-- What a node contains. -/
def contents (d : Draft) (id : String) : List String := d.inside.targets id

/-- The edges between two nodes, either way. -/
def edgesBetween (d : Draft) (a b : String) : List Edge :=
  d.edges.filter fun e =>
    (e.source == a && e.target == b) || (e.source == b && e.target == a)

end Draft

/-! ## Containment -/

/-- The parent that a node names. -/
def Node.parent? (n : Node) : Option String := n.parentId.filter (!·.isEmpty)

/-- The nodes that name a parent. -/
def childrenOf (nodes : List Node) (id : String) : List String :=
  (nodes.filter fun n => n.parent? == some id).map (·.id)

/-- The number of steps from a node down to the farthest of those in it. -/
def depthBelow (nodes : List Node) (id : String) : Nat :=
  ((within (childrenOf nodes) (nodes.map (·.id)) id none).map (·.2)).foldl max 0

/-- The greatest depth below a node without a parent. -/
def containmentDepth (nodes : List Node) : Nat :=
  ((nodes.filter fun n => n.parent?.isNone).map fun n => depthBelow nodes n.id).foldl max 0

namespace Draft

/-- The children noted at their parents. -/
def settle (d : Draft) : Draft :=
  { d with nodes := d.nodes.map fun n => { n with children := childrenOf d.nodes n.id } }

/-- The draft as a graph. -/
def graph (d : Draft) (now : String) : Graph where
  nodes := d.settle.nodes
  edges := d.edges
  metadata :=
    { totalNodes := d.nodes.length
      totalEdges := d.edges.length
      maxDepth := containmentDepth d.nodes
      generatedAt := now }

end Draft

end CodeAtlas
