import CodeAtlas.Graph.Search

/-!
# Layouts by levels

Nodes stand in rows by layer, or on rings by their distance from a hub.
-/

namespace CodeAtlas

/-! ## Frames and spots

Coordinates are rounded to two places, except those of the centre of a radial layout. -/

/-- Where nodes may stand. -/
structure Frame (A : Type) where
  width : A
  height : A
  padding : A
  spacing : A
  rounds : Int

/-- The frame if none is chosen. -/
def Frame.usual : Frame Amount := ⟨.whole 1200, .whole 800, .whole 50, .whole 100, 300⟩

/-- The frame with other numbers. -/
def Frame.map {A B : Type} (f : A → B) (frame : Frame A) : Frame B where
  width := f frame.width
  height := f frame.height
  padding := f frame.padding
  spacing := f frame.spacing
  rounds := frame.rounds

/-- The place of a node before it is written. -/
structure Spot (K : Type) where
  x : K
  y : K
  /-- The coordinates are written with two places, and else as they are. -/
  rounded : Bool := true

/-- The place as it is written. -/
def Spot.final {K : Type} [Arith K] (s : Spot K) : K × K :=
  if s.rounded then (Arith.round 2 s.x, Arith.round 2 s.y) else (s.x, s.y)

/-- The position at a spot. -/
def Spot.position (s : Spot Computed) : Except NumberFault Position := do
  let (x, y) := s.final
  return ⟨← x.amount, ← y.amount⟩

/-- The spot of the last node of each id; those before it get none. -/
def lastSpots {K : Type} (spot? : String → Option (Spot K)) : List String → List (Option (Spot K))
  | [] => []
  | id :: rest => (if rest.contains id then none else spot? id) :: lastSpots spot? rest

/-! ## Layers

The edges out of a node are followed when all edges into it have been. A node on a cycle or behind
one stays where the edges followed so far have put it. -/

/-- The layers found so far. -/
structure Layering where
  /-- How many edges into each node have not been followed. -/
  waiting : Table String Int
  layers : Table String Nat
  /-- The nodes whose edges are to be followed. -/
  queue : List String

namespace Layering

/-- The edge from `source` to `target` followed. -/
def followEdge (source : String) (l : Layering) (target : String) : Layering :=
  let left := l.waiting.getD target 0 - 1
  { waiting := l.waiting.put target left
    layers := l.layers.put target
      (max (l.layers.getD target 0) (l.layers.getD source 0 + 1))
    queue := if left = 0 then l.queue ++ [target] else l.queue }

/-- The edges out of queued nodes followed, for at most `fuel` nodes. -/
def follow (pairs : List (String × String)) : Nat → Layering → Layering
  | 0, l => l
  | fuel + 1, l =>
    match l.queue with
    | [] => l
    | source :: rest =>
      let targets := (pairs.filter (·.1 == source)).map (·.2)
      follow pairs fuel (targets.foldl (followEdge source) { l with queue := rest })

/-- The layering before any edge is followed, the nodes without sources queued. -/
def start (pairs : List (String × String)) (ids : List String) : Layering :=
  let free := ids.filter fun id => !pairs.any (·.2 == id)
  { waiting := ids.eraseDups.map fun id => (id, (pairs.countP (·.2 == id) : Nat))
    layers := free.eraseDups.map fun id => (id, 0)
    queue := free }

end Layering

/-- The layers of the ids; a node is queued once for each listing and once when its last edge is
followed, which bounds the fuel. -/
def layersOf (pairs : List (String × String)) (ids : List String) : Table String Nat :=
  let l := Layering.follow pairs (2 * ids.length) (.start pairs ids)
  ids.foldl (fun layers id => layers.keep id 0) l.layers

/-- The layers of a graph. -/
def Graph.layers (g : Graph) : Table String Nat := layersOf g.connections g.ids

/-! ## Hierarchical layout

Within a row the nodes are ordered by the mean place, in the row above, of the nodes that they point
to; four sweeps go down the rows. -/

section

variable {K : Type} [Arith K]

/-- The last place of an id in a row. -/
def placeIn? (row : List String) (id : String) : Option Nat :=
  (row.zipIdx.reverse.find? (·.1 == id)).map (·.2)

/-- The mean place above of a node's targets, zero if none is there. -/
def barycenter (targets : List String) (above : List String) : K :=
  let places := targets.filterMap (placeIn? above)
  if places.isEmpty then Arith.int 0
  else Arith.nat (places.foldr (· + ·) 0) / Arith.nat places.length

/-- A row in the order of the means. -/
def orderRow (K : Type) [Arith K] (next : String → List String) (above row : List String) :
    List String :=
  let keyed := row.map fun id => (id, (barycenter (next id) above : K))
  (keyed.mergeSort fun a b => decide (a.2 ≤ b.2)).map (·.1)

/-- The rows below ordered one by one. -/
def sweepBelow (K : Type) [Arith K] (next : String → List String) (above : List String) :
    List (List String) → List (List String)
  | [] => []
  | row :: rows =>
    let ordered := orderRow K next above row
    ordered :: sweepBelow K next ordered rows

/-- All rows but the first ordered, from top to bottom. -/
def sweep (K : Type) [Arith K] (next : String → List String) :
    List (List String) → List (List String)
  | [] => []
  | row :: rows => row :: sweepBelow K next row rows

/-- The ids by layer. -/
def layerRows (layers : Table String Nat) (ids : List String) : List (List String) :=
  let deepest := (ids.map fun id => layers.getD id 0).foldl max 0
  (List.range (deepest + 1)).map fun layer => ids.filter fun id => layers.getD id 0 == layer

/-- The rows after the sweeps. -/
def Graph.rows (K : Type) [Arith K] (g : Graph) : List (List String) :=
  let pairs := g.connections
  let next := fun id => (pairs.filter (·.1 == id)).map (·.2)
  sweep K next (sweep K next (sweep K next (sweep K next (layerRows g.layers g.ids))))

/-- The spot at a place of a row. -/
def rowSpot (frame : Frame K) (rowCount layer : Nat) (row : List String) (place : Nat) : Spot K :=
  let rowHeight := (frame.height - Arith.int 2 * frame.padding) / Arith.nat (max (rowCount - 1) 1)
  let step := (frame.width - Arith.int 2 * frame.padding) / Arith.nat (max row.length 1)
  { x := frame.padding + (Arith.nat place + Arith.ratio 1 2) * step
    y := frame.padding + Arith.nat layer * rowHeight }

/-- The spot of an id among the rows. -/
def spotInRows (frame : Frame K) (rows : List (List String)) (id : String) : Option (Spot K) :=
  rows.zipIdx.findSome? fun (row, layer) =>
    (placeIn? row id).map fun place => rowSpot frame rows.length layer row place

/-- The spots of the hierarchical layout. -/
def Graph.hierarchicalSpots (frame : Frame K) (g : Graph) : List (Option (Spot K)) :=
  let rows := g.rows K
  lastSpots (spotInRows frame rows) g.ids

end

/-! ## Radial layout

Nodes that the hub does not reach stand in the centre too. A ring spreads its nodes evenly, starting
at the top. -/

namespace Graph

/-- The wished hub if it is a node, else the first node without sources, else the first. -/
def hub? (g : Graph) (wished : Option String) : Option String :=
  let pairs := g.connections
  (wished.filter g.ids.contains).or
    ((g.ids.find? fun id => !pairs.any (·.2 == id)).or g.ids.head?)

/-- The steps from the hub to the nodes it reaches, over edges of every kind. -/
def ringNumbers (g : Graph) (hub : String) : Table String Nat :=
  let links := Links.ofPairs g.connections
  (shortestPaths links.targets g.ids hub).map fun (id, path) => (id, path.length - 1)

/-- The ids by ring, those not reached on one more. -/
def rings (g : Graph) (hub : String) : List (List String) :=
  let numbers := g.ringNumbers hub
  let outermost := (g.ids.map fun id => numbers.getD id 0).foldl max 0
  (List.range (outermost + 1)).map fun ring => g.ids.filter fun id => numbers.getD id 0 == ring

end Graph

section

variable {K : Type} [Geometry K]

/-- The middle of the frame. -/
def Frame.centre (frame : Frame K) : K × K :=
  (frame.width / Arith.int 2, frame.height / Arith.int 2)

/-- The widest radius in the frame. -/
def Frame.reach (frame : Frame K) : K :=
  Arith.min frame.width frame.height / Arith.int 2 - frame.padding

/-- The spot at a place of a ring. -/
def ringSpot (frame : Frame K) (ringCount ring : Nat) (members : List String) (place : Nat) :
    Spot K :=
  let (cx, cy) := frame.centre
  if ring = 0 then { x := cx, y := cy, rounded := false }
  else
    let radius := Arith.nat ring * (frame.reach / Arith.nat (max (ringCount - 1) 1))
    let turn := Arith.int 2 * Geometry.pi / Arith.nat members.length
    let angle := Arith.nat place * turn - Geometry.pi / Arith.int 2
    { x := cx + radius * Geometry.cos angle
      y := cy + radius * Geometry.sin angle }

/-- The spot of an id among the rings. -/
def spotOnRings (frame : Frame K) (rings : List (List String)) (id : String) : Option (Spot K) :=
  rings.zipIdx.findSome? fun (members, ring) =>
    ((members.zipIdx.reverse.find? (·.1 == id)).map (·.2)).map fun place =>
      ringSpot frame rings.length ring members place

/-- The spots of the radial layout. -/
def Graph.radialSpots (frame : Frame K) (g : Graph) (wished : Option String) :
    List (Option (Spot K)) :=
  match g.hub? wished with
  | none => []
  | some hub =>
    let rings := g.rings hub
    lastSpots (spotOnRings frame rings) g.ids

end

end CodeAtlas
