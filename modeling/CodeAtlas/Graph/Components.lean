import CodeAtlas.Graph.Search

/-!
# Components

Two nodes are tied to each other if each is reachable from the other. The strongly connected
components are the classes of tied nodes; those of a single node are left out. In a depth-first
search the nodes wait, in the order in which they were entered, until their component is complete:
when a node is closed from which no earlier waiting node was reached, it and all later waiting nodes
are a component. A component comes after the components that it reaches, and lists its members
newest first.
-/

namespace CodeAtlas

/-- The components as far as a search has found them. -/
structure Binding where
  count : Nat := 0
  /-- How many nodes had been entered before a node. -/
  entries : Std.HashMap String Nat := ∅
  /-- The earliest entry that a node is known to reach. -/
  lows : Std.HashMap String Nat := ∅
  /-- The nodes that are in no component yet, newest first. -/
  waiting : List String := []
  found : List (List String) := []

namespace Binding

/-- When a node was entered. -/
def entry (b : Binding) (node : String) : Nat := b.entries.getD node 0

/-- The earliest entry that a node reaches back to. -/
def low (b : Binding) (node : String) : Nat := b.lows.getD node 0

/-- A node entered. -/
def enter (node : String) (b : Binding) : Binding :=
  { b with
    count := b.count + 1
    entries := b.entries.insert node b.count
    lows := b.lows.insert node b.count
    waiting := node :: b.waiting }

/-- A node reaches back to an entry. -/
def reachBack (b : Binding) (node : String) (entry : Nat) : Binding :=
  { b with lows := b.lows.insert node (min (b.low node) entry) }

/-- An edge looked at. -/
def meet (node successor : String) (b : Binding) : Binding :=
  if successor ∈ b.waiting then b.reachBack node (b.entry successor) else b

/-- The node and all nodes that wait since it was entered, newest first. -/
def since (b : Binding) (node : String) : List String := b.waiting.takeWhile (· ≠ node) ++ [node]

/-- The nodes since the given one released, a component if two or more. -/
def release (b : Binding) (node : String) : Binding :=
  { b with
    waiting := (b.waiting.dropWhile (· ≠ node)).drop 1
    found := if 2 ≤ (b.since node).length then b.since node :: b.found else b.found }

/-- The node around the given one, if there is one, reaches back as far. -/
def handOver (b : Binding) (node : String) : List String → Binding
  | [] => b
  | parent :: _ => b.reachBack parent (b.low node)

/-- A node closed; if it reaches back to itself only, its component is complete. -/
def close (node : String) (outer : List String) (b : Binding) : Binding :=
  let handed := b.handOver node outer
  if handed.low node = handed.entry node then handed.release node else handed

end Binding

/-- The search for components. -/
def bindingVisitor : Visitor Binding where
  enter := Binding.enter
  meet node _ successor := Binding.meet node successor
  close := Binding.close

/-- The number of parts of the ids that `next` does not join. -/
def pieces (next : String → List String) (ids : List String) : Nat :=
  (ids.foldl
    (fun (count, covered) id =>
      if covered.contains id then (count, covered)
      else (count + 1, covered ++ reached next ids id))
    ((0, []) : Nat × List String)).1

namespace Graph

/-- The components of a graph. -/
def components (g : Graph) : List (List String) :=
  let ahead := g.ahead
  (depthFirst bindingVisitor ahead.targets g.ids {}).found.reverse

/-- The number of parts of the graph that no edge of any kind joins. -/
def pieceCount (g : Graph) : Nat :=
  let ahead := Links.ofPairs g.connections
  let behind := Links.ofPairs (g.connections.map Prod.swap)
  pieces (fun id => ahead.targets id ++ behind.targets id) g.ids

end Graph

end CodeAtlas
