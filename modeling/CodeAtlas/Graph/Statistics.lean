import CodeAtlas.Graph.Components

/-!
# Importance and statistics

How important the nodes of a graph are, and its figures.
-/

namespace CodeAtlas

/-! ## Importance and betweenness

In every round a node hands its score on to what it depends on, in equal parts; what nodes without
dependencies hold is spread over all. -/

section Importance

variable {K : Type} [Arith K]

/-- The score of an id. -/
def scoreOf (scores : List (String × K)) (id : String) : K :=
  ((scores.find? (·.1 == id)).map (·.2)).getD (Arith.int 0)

/-- What nodes without dependencies hold. -/
def idleScore (ahead : String → List String) (ids : List String) (scores : List (String × K)) : K :=
  Arith.sum ((ids.filter fun id => (ahead id).isEmpty).map (scoreOf scores))

/-- The scores after one round of handing on. -/
def importanceRound (ahead behind : String → List String) (ids : List String) (damping : K)
    (scores : List (String × K)) : List (String × K) :=
  let count : K := Arith.nat ids.length
  let idle := idleScore ahead ids scores
  ids.eraseDups.map fun id =>
    let incoming := Arith.sum <| (behind id).map fun source =>
      scoreOf scores source / Arith.nat (ahead source).length
    (id, (Arith.int 1 - damping) / count + damping * (incoming + idle / count))

/-- The scores after a number of rounds. -/
def importanceAfter (ahead behind : String → List String) (ids : List String) (damping : K) :
    Nat → List (String × K)
  | 0 => ids.eraseDups.map fun id => (id, Arith.int 1 / Arith.nat ids.length)
  | rounds + 1 =>
    importanceRound ahead behind ids damping (importanceAfter ahead behind ids damping rounds)

/-- The usual part that is handed on. -/
def usualDamping : K := Arith.ratio 85 100

/-- The usual number of rounds. -/
def usualRounds : Nat := 20

namespace Graph

/-- The importance of the nodes. -/
def importance (g : Graph) (damping : K) (rounds : Nat) : List (String × K) :=
  let ahead := g.ahead
  let behind := g.behind
  importanceAfter ahead.targets behind.targets g.ids damping rounds

/-- The importance after the usual rounds. -/
def usualImportance (g : Graph) : List (String × K) := g.importance usualDamping usualRounds

end Graph

end Importance

/-- The nodes between the ends of a path. -/
def interior (path : List String) : List String := (path.drop 1).dropLast

/-- How often each text occurs. -/
def occurrences (xs : List String) : Std.HashMap String Nat :=
  xs.foldl (fun counts x => counts.insert x (counts.getD x 0 + 1)) ∅

namespace Graph

/-- The nodes inside all shortest paths. -/
def passages (g : Graph) : List String :=
  let ahead := g.ahead
  g.ids.flatMap fun source =>
    (shortestPaths ahead.targets g.ids source).flatMap fun (_, path) => interior path

/-- How often shortest paths pass each node. -/
def passageCounts (g : Graph) : List (String × Nat) :=
  let counts := occurrences g.passages
  g.ids.eraseDups.map fun id => (id, counts.getD id 0)

/-- The passages in parts of the most. -/
def betweenness {K : Type} [Arith K] (g : Graph) : List (String × K) :=
  let counts := g.passageCounts
  let highest := (counts.map (·.2)).foldl max 0
  counts.map fun (id, count) =>
    (id, if highest = 0 then Arith.int 0 else Arith.nat count / Arith.nat highest)

end Graph

/-! ## Statistics of a graph -/

/-- The figures of a graph. -/
structure Statistics (K : Type) where
  nodeCount : Nat
  edgeCount : Nat
  /-- Edges per ordered pair of different nodes. -/
  density : K
  averageDegree : K
  maxDegree : Nat
  connectedComponents : Nat
  hasCycles : Bool

namespace Graph

/-- How many nodes each node is joined to, those ahead and behind counted apart. -/
def degrees (g : Graph) : List Nat :=
  let ahead := Links.ofPairs g.connections
  let behind := Links.ofPairs (g.connections.map Prod.swap)
  g.ids.map fun id => (ahead.targets id).length + (behind.targets id).length

/-- The figures of a graph, computed. -/
def statistics {K : Type} [Arith K] (g : Graph) : Statistics K :=
  let nodes := g.nodes.length
  let possible := nodes * (nodes - 1)
  { nodeCount := nodes
    edgeCount := g.edges.length
    density := if possible = 0 then Arith.int 0 else Arith.nat g.edges.length / Arith.nat possible
    averageDegree :=
      if nodes = 0 then Arith.int 0 else Arith.nat (g.degrees.foldr (· + ·) 0) / Arith.nat nodes
    maxDegree := g.degrees.foldl max 0
    connectedComponents := g.pieceCount
    hasCycles := !g.cycles.isEmpty }

end Graph

end CodeAtlas
