import CodeAtlas.Layout.Bodies

/-!
# Layouts

* `LayoutKind`: the four ways to place nodes, with their names.
* `Graph.spots`: the spots of the nodes, for any scalars.
* `Graph.groundwork`: the measures that a layout takes before it places a node.
* `Graph.laidOut`: the graph with its nodes placed.
-/

namespace CodeAtlas

/-- The layouts. -/
inductive LayoutKind where
  | force
  | hierarchical
  | radial
  | organic
deriving DecidableEq

namespace LayoutKind

/-- The name of a layout. -/
def name : LayoutKind → String
  | .force => "force"
  | .hierarchical => "hierarchical"
  | .radial => "radial"
  | .organic => "organic"

/-- All layouts. -/
def all : List LayoutKind := [.force, .hierarchical, .radial, .organic]

/-- The layout with this name; forces if there is none. -/
def ofName (name : String) : LayoutKind := (all.find? (·.name == name)).getD .force

end LayoutKind

/-- The spots of a layout. -/
@[specialize]
def Graph.spots {K : Type} [Geometry K] (ofAmount : Amount → K) (kind : LayoutKind)
    (frame : Frame K) (g : Graph) (root : Option String) : List (Option (Spot K)) :=
  match kind with
  | .force => g.forceSpots ofAmount frame root
  | .hierarchical => g.hierarchicalSpots frame
  | .radial => g.radialSpots frame root
  | .organic => g.organicSpots ofAmount frame root

/-- The measures that a layout takes first, some of which no spot may show. -/
def Graph.groundwork {K : Type} [Geometry K] (kind : LayoutKind) (frame : Frame K) (g : Graph) :
    List K :=
  match kind with
  | .radial => [frame.centre.1, frame.centre.2, frame.reach]
  | .organic => [shareSide frame g.ids.length]
  | .force | .hierarchical => []

/-- The node at a spot. -/
def Node.placed (n : Node) (spot : Option (Spot Computed)) : Except NumberFault Node :=
  match spot with
  | none => .ok n
  | some spot => do return { n with position := some (← spot.position) }

/-- The nodes at their spots. -/
def placeNodes (nodes : List Node) (spots : List (Option (Spot Computed))) :
    Except NumberFault (List Node) :=
  (nodes.zip spots).mapM fun (n, spot) => n.placed spot

/-- The graph with its nodes placed, if all coordinates can be computed. -/
def Graph.laidOut (kind : LayoutKind) (frame : Frame Amount) (g : Graph) (root : Option String) :
    Except NumberFault Graph :=
  if g.nodes.isEmpty then .ok g
  else do
    let frame := frame.map Amount.computed
    let _ ← (g.groundwork kind frame).mapM Computed.amount
    let nodes ← placeNodes g.nodes (g.spots Amount.computed kind frame root)
    return { g with nodes := nodes }

end CodeAtlas
