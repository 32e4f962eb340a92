import CodeAtlas.Graph.Basic

/-!
# Searching a graph

Shortest paths are found breadth first, and cycles depth first.
-/

namespace CodeAtlas

/-! ## Breadth-first search

Nodes are visited in rounds of growing distance, each with the path on which it was found first,
which is a shortest one. -/

/-- The steps keep to the bound, if there is one. -/
def keepsTo (bound : Option Int) (steps : Nat) : Bool :=
  match bound with
  | none => true
  | some most => decide ((steps : Int) ≤ most)

/-- The nodes found from a queue of paths, each listed from its end: a fresh node whose path keeps
to the bound is visited, and its fresh neighbours join the queue. -/
def exploreFrom (next : String → List String) (bound : Option Int) (fresh : List String)
    (queue : List (String × List String)) : List (String × List String) :=
  match queue with
  | [] => []
  | (node, path) :: rest =>
    if node ∈ fresh ∧ keepsTo bound (path.length - 1) then
      let others := without fresh node
      (node, path) :: exploreFrom next bound others
        (rest ++ ((next node).filter (· ∈ others)).map fun n => (n, n :: path))
    else exploreFrom next bound fresh rest
termination_by (fresh.length, queue.length)
decreasing_by
  · exact Prod.Lex.left _ _ (length_without_lt (And.left ‹_›))
  · apply Prod.Lex.right
    simp

/-- The nodes reachable from the start in the order of visits, each with its path. -/
def shortestPaths (next : String → List String) (ids : List String) (start : String) :
    List (String × List String) :=
  (exploreFrom next none (start :: ids) [(start, [start])]).map fun (node, path) =>
    (node, path.reverse)

/-- The nodes reachable from the start. -/
def reached (next : String → List String) (ids : List String) (start : String) : List String :=
  (exploreFrom next none (start :: ids) [(start, [start])]).map (·.1)

/-- The nodes within a bound of the start, with the steps to them. -/
def within (next : String → List String) (ids : List String) (start : String)
    (bound : Option Int) : List (String × Nat) :=
  (exploreFrom next bound (start :: ids) [(start, [start])]).map fun (node, path) =>
    (node, path.length - 1)

namespace Graph

/-- The shortest paths from a node. -/
def pathsFrom (g : Graph) (start : String) : List (String × List String) :=
  shortestPaths g.ahead.targets g.ids start

/-- What a node depends on within a depth. -/
def reachable (g : Graph) (start : String) (depth : Int) : List (String × Nat) :=
  within g.ahead.targets g.ids start (some depth)

/-- What depends on a node within a depth. -/
def dependents (g : Graph) (target : String) (depth : Int) : List (String × Nat) :=
  within g.behind.targets g.ids target (some depth)

end Graph

/-! ## Depth-first search

A node is closed when none of its successors is fresh. A successor that is still open closes a
cycle. -/

/-- What is noted on the way of a search. -/
structure Visitor (σ : Type) where
  enter : String → σ → σ
  meet : String → List String → String → σ → σ
  close : String → List String → σ → σ

/-- The nodes of a path. -/
def nodesOn (path : List (String × List String)) : List String := path.map (·.1)

/-- A depth-first search on its way. -/
structure Traversal (σ : Type) where
  fresh : List String
  /-- The open nodes, innermost first, each with the successors still to be looked at. -/
  path : List (String × List String)
  notes : σ

namespace Traversal

variable {σ : Type}

/-- The nodes that are open. -/
def openNodes (s : Traversal σ) : List String := nodesOn s.path

/-- A node entered. -/
def enter (v : Visitor σ) (next : String → List String) (s : Traversal σ) (node : String) :
    Traversal σ where
  fresh := without s.fresh node
  path := (node, next node) :: s.path
  notes := v.enter node s.notes

/-- The moves that open nodes still allow. -/
def pending (s : Traversal σ) : Nat :=
  (s.path.map fun (_, rest) => rest.length + 1).foldr (· + ·) 0

/-- The search from its state on, then from the remaining roots. -/
def run (v : Visitor σ) (next : String → List String) (s : Traversal σ) (roots : List String) :
    Traversal σ :=
  match _hp : s.path with
  | [] =>
    match roots with
    | [] => s
    | root :: roots =>
      if root ∈ s.fresh then run v next (s.enter v next root) roots else run v next s roots
  | (node, []) :: path =>
    run v next ⟨s.fresh, path, v.close node (nodesOn path) s.notes⟩ roots
  | (node, successor :: rest) :: path =>
    if successor ∈ s.fresh then
      run v next (enter v next ⟨s.fresh, (node, rest) :: path, s.notes⟩ successor) roots
    else
      run v next ⟨s.fresh, (node, rest) :: path, v.meet node (nodesOn path) successor s.notes⟩ roots
termination_by (s.fresh.length, roots.length + s.pending)
decreasing_by
  · exact Prod.Lex.left _ _ (length_without_lt ‹_›)
  · apply Prod.Lex.right
    simp
  · apply Prod.Lex.right
    simp [pending, _hp]
  · exact Prod.Lex.left _ _ (length_without_lt ‹_›)
  · apply Prod.Lex.right
    simp [pending, _hp]

end Traversal

/-- What a whole search notes. -/
def depthFirst {σ : Type} (v : Visitor σ) (next : String → List String) (ids : List String)
    (blank : σ) : σ :=
  (Traversal.run v next ⟨ids.eraseDups, [], blank⟩ ids).notes

/-- The open nodes from `node` to the innermost one. -/
def loopFrom (openNodes : List String) (node : String) : List String :=
  (openNodes.takeWhile (· ≠ node) ++ [node]).reverse

/-- Notes down the cycles that open successors close, newest first. -/
def cycleVisitor : Visitor (List (List String)) where
  enter _ cycles := cycles
  meet node outer successor cycles :=
    if successor ∈ node :: outer then loopFrom (node :: outer) successor :: cycles else cycles
  close _ _ cycles := cycles

namespace Graph

/-- The cycles that edges back to open nodes close, in the order found. -/
def cycles (g : Graph) : List (List String) :=
  let ahead := g.ahead
  (depthFirst cycleVisitor ahead.targets g.ids []).reverse

end Graph

end CodeAtlas
