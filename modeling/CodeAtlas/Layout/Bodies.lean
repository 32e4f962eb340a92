import CodeAtlas.Layout.Levels
import CodeAtlas.Random.Generator
import CodeAtlas.Text.Utf8

/-!
# Layouts by forces

The nodes are bodies that push each other apart while edges pull their ends together. The strength
of the forces falls from round to round. Bodies start at places drawn at random from a seed that the
root and the ids determine, so a layout repeats exactly. Nodes with one id share a body.
-/

namespace CodeAtlas

/-! ## Bodies under forces -/

/-- What moves, and its drift. -/
structure Body (K : Type) where
  x : K
  y : K
  dx : K
  dy : K
deriving Inhabited

/-- An edge that pulls two bodies together. -/
structure Pull (K : Type) where
  source : Nat
  target : Nat
  weight : K

/-- What moves the bodies; the first argument is the strength that is left. -/
structure Forces (K : Type) where
  /-- The distance at which bodies in one place are taken to be. -/
  least : K
  wake : Body K → Body K
  /-- The force that drives two bodies apart, by their distance. -/
  push : K → K → K
  /-- The force with which an edge of a weight draws its ends together, by their distance. -/
  pull : K → K → K → K
  settle : K → Body K → Body K

section

variable {K : Type} [Geometry K]

/-- The length of a vector. -/
@[specialize]
def vectorLength (x y : K) : K := Geometry.sqrt (x * x + y * y)

/-- The force of the given size along the line from one body to another. -/
@[specialize]
def forceBetween (least : K) (size : K → K) (a b : Body K) : K × K :=
  let dx := b.x - a.x
  let dy := b.y - a.y
  let length := vectorLength dx dy
  let distance := if Arith.isZero length then least else length
  let force := size distance
  (dx / distance * force, dy / distance * force)

/-- The body under a force. -/
@[specialize]
def Body.driven (fx fy : K) (b : Body K) : Body K := { b with dx := b.dx + fx, dy := b.dy + fy }

/-- The body under the opposite force. -/
@[specialize]
def Body.held (fx fy : K) (b : Body K) : Body K := { b with dx := b.dx - fx, dy := b.dy - fy }

/-- Two bodies driven apart. -/
@[specialize]
def pushPair (least : K) (size : K → K) (bodies : Array (Body K)) (pair : Nat × Nat) :
    Array (Body K) :=
  match bodies[pair.1]?, bodies[pair.2]? with
  | some a, some b =>
    let (fx, fy) := forceBetween least size a b
    (bodies.modify pair.1 (·.held fx fy)).modify pair.2 (·.driven fx fy)
  | _, _ => bodies

/-- Two bodies pulled together. -/
@[specialize]
def pullPair (least : K) (size : K → K → K) (bodies : Array (Body K)) (edge : Pull K) :
    Array (Body K) :=
  match bodies[edge.source]?, bodies[edge.target]? with
  | some a, some b =>
    let (fx, fy) := forceBetween least (size edge.weight) a b
    (bodies.modify edge.source (·.driven fx fy)).modify edge.target (·.held fx fy)
  | _, _ => bodies

/-- All pairs of items. -/
def laterPairs {α : Type} : List α → List (α × α)
  | [] => []
  | a :: rest => rest.map (fun b => (a, b)) ++ laterPairs rest

namespace Forces

/-- One round with the given strength; `slots` has the body of each node. -/
@[specialize]
def step (forces : Forces K) (slots : List Nat) (pairs : List (Nat × Nat)) (pulls : List (Pull K))
    (strength : K) (bodies : Array (Body K)) : Array (Body K) :=
  let awake := bodies.map forces.wake
  let pushed := pairs.foldl (pushPair forces.least (forces.push strength)) awake
  let pulled := pulls.foldl (pullPair forces.least (forces.pull strength)) pushed
  slots.foldl (fun bodies slot => bodies.modify slot (forces.settle strength)) pulled

/-- All rounds; the strength falls evenly from one to zero. -/
@[specialize]
def run (forces : Forces K) (slots : List Nat) (pulls : List (Pull K)) (rounds : Nat)
    (bodies : Array (Body K)) : Array (Body K) :=
  let pairs := laterPairs slots
  (List.range rounds).foldl
    (fun bodies round =>
      let strength := Arith.int 1 - Arith.nat round / Arith.nat rounds
      forces.step slots pairs pulls strength bodies)
    bodies

end Forces

end

/-- The number of pairs that may be looked at in all rounds together. -/
def pairBudget : Int := 2000000

/-- The rounds for a number of nodes: fewer for large graphs, but at least ten. -/
def roundsFor (nodes requested : Int) : Int :=
  if nodes < 2 then requested else max 10 (min requested (pairBudget / (nodes * nodes)))

/-- The seed of a layout: the checksum of the root and the sorted ids. -/
def seedOf (root : Option String) (ids : List String) : UInt32 :=
  Random.checksum (Utf8.bytes
    (Text.joinWith "|" (root.getD "" :: ids.mergeSort fun a b => decide (a ≤ b))))

/-- The random numbers of a layout. -/
def layoutFractions {K : Type} [Arith K] (root : Option String) (ids : List String) (count : Nat) :
    List K :=
  Random.Twister.fractions count (Random.Twister.seeded (seedOf root ids))

/-- The items in pairs. -/
def twoByTwo {α : Type} : List α → List (α × α)
  | a :: b :: rest => (a, b) :: twoByTwo rest
  | _ => []

section

variable {K : Type} [Geometry K]

/-- The bodies at the start. -/
def firstBodies (place : K → K → Body K) (root : Option String) (ids : List String) :
    Array (Body K) :=
  let draws := ids.zip (twoByTwo (layoutFractions root ids (2 * ids.length)))
  let latest := draws.reverse
  (ids.eraseDups.filterMap fun id =>
    (latest.find? (·.1 == id)).map fun (_, a, b) => place a b).toArray

/-- The pulls of edges. -/
def pullsOf (ofAmount : Amount → K) (slots : List String) (edges : List Edge) : List (Pull K) :=
  edges.filterMap fun e => do
    let source ← slots.idxOf? e.source
    let target ← slots.idxOf? e.target
    return ⟨source, target, ofAmount e.weight⟩

/-- Where the bodies come to rest; `place` makes a body of two fractions. -/
@[specialize]
def Graph.bodySpots (ofAmount : Amount → K) (forces : Forces K) (place : K → K → Body K)
    (frame : Frame K) (g : Graph) (root : Option String) : List (Option (Spot K)) :=
  let distinct := g.ids.eraseDups
  let slots := g.ids.filterMap distinct.idxOf?
  let rounds := (roundsFor g.ids.length frame.rounds).toNat
  let rest := forces.run slots (pullsOf ofAmount distinct g.edges) rounds
    (firstBodies place root g.ids)
  slots.map fun slot => rest[slot]?.map fun b => { x := b.x, y := b.y }

end

/-! ## Force-directed layout

Bodies repel by the square of their distance, and edges are springs whose length shrinks with their
weight. -/

variable {K : Type} [Geometry K]

/-- The end of a round: drawn to the centre, slowed, moved, kept in the frame. -/
@[specialize]
def driftToCentre (frame : Frame K) (strength : K) (b : Body K) : Body K :=
  let cx := frame.width / Arith.int 2
  let cy := frame.height / Arith.int 2
  let dx := (b.dx + (cx - b.x) * Arith.ratio 1 100 * strength) * Arith.ratio 9 10
  let dy := (b.dy + (cy - b.y) * Arith.ratio 1 100 * strength) * Arith.ratio 9 10
  { x := Arith.clamp (b.x + dx) frame.padding (frame.width - frame.padding)
    y := Arith.clamp (b.y + dy) frame.padding (frame.height - frame.padding)
    dx := dx
    dy := dy }

/-- The length that an edge strives for; a weight of zero counts as one. -/
@[specialize]
def springLength (frame : Frame K) (weight : K) : K :=
  let given := if Arith.isZero weight then Arith.int 1 else weight
  frame.spacing * (Arith.int 1 + Arith.int 1 / given)

/-- The forces of springs. -/
@[specialize]
def springForces (frame : Frame K) : Forces K where
  least := Arith.int 1
  wake := id
  push := fun strength distance => Arith.int 5000 * strength / (distance * distance)
  pull := fun strength weight distance =>
    Arith.ratio 1 10 * (distance - springLength frame weight) * strength
  settle := driftToCentre frame

/-- A body near the centre. -/
def aroundCentre (frame : Frame K) (a b : K) : Body K where
  x := frame.width / Arith.int 2 + (a - Arith.ratio 1 2) * frame.width * Arith.ratio 1 2
  y := frame.height / Arith.int 2 + (b - Arith.ratio 1 2) * frame.height * Arith.ratio 1 2
  dx := Arith.int 0
  dy := Arith.int 0

/-- The spots of the force layout. -/
@[specialize]
def Graph.forceSpots (ofAmount : Amount → K) (frame : Frame K) (g : Graph)
    (root : Option String) : List (Option (Spot K)) :=
  g.bodySpots ofAmount (springForces frame) (aroundCentre frame) frame root

/-! ## Organic layout

Bodies repel by their distance, edges pull by the square of it, and no body moves further in a round
than the falling temperature allows. -/

/-- The end of a round: moved as far as allowed, kept in the frame. -/
@[specialize]
def moveAtMost (frame : Frame K) (strength : K) (b : Body K) : Body K :=
  let reach := frame.width / Arith.int 10 * strength
  let length := vectorLength b.dx b.dy
  let limited := Arith.min length reach
  let x := if Arith.int 0 < length then b.x + b.dx / length * limited else b.x
  let y := if Arith.int 0 < length then b.y + b.dy / length * limited else b.y
  { b with
    x := Arith.clamp x frame.padding (frame.width - frame.padding)
    y := Arith.clamp y frame.padding (frame.height - frame.padding) }

/-- The side of the square that each of the nodes would like to have. -/
def shareSide (frame : Frame K) (nodes : Nat) : K :=
  Geometry.sqrt (frame.width * frame.height / Arith.nat nodes)

/-- Repulsion by distance and attraction by its square, in shares of the area. -/
@[specialize]
def areaForces (frame : Frame K) (side : K) : Forces K where
  least := Arith.ratio 1 100
  wake := fun b => { b with dx := Arith.int 0, dy := Arith.int 0 }
  push := fun _ distance => side * side / distance
  pull := fun _ _ distance => distance * distance / side
  settle := moveAtMost frame

/-- A body inside the padding. -/
def withinPadding (frame : Frame K) (a b : K) : Body K where
  x := frame.padding + a * (frame.width - Arith.int 2 * frame.padding)
  y := frame.padding + b * (frame.height - Arith.int 2 * frame.padding)
  dx := Arith.int 0
  dy := Arith.int 0

/-- The spots of the organic layout. -/
@[specialize]
def Graph.organicSpots (ofAmount : Amount → K) (frame : Frame K) (g : Graph)
    (root : Option String) : List (Option (Spot K)) :=
  g.bodySpots ofAmount (areaForces frame (shareSide frame g.ids.length)) (withinPadding frame)
    frame root

end CodeAtlas
