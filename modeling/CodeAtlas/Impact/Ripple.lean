import CodeAtlas.Impact.Analysis

/-!
# Ripples

The impacts of a change drawn as rings around it, one for each depth.
-/

namespace CodeAtlas

/-- The symbol that an id names, and its file if the id tells. -/
def splitEntity (id : String) : String × Option String :=
  match Text.splitOn ':' id with
  | [] => (id, none)
  | [_] => (id, none)
  | [file, symbol] =>
    if Text.hasPart file "." || Text.hasPart file "/" then (symbol, some file) else (symbol, none)
  | _ :: parts => (parts.getLastD "", some (Text.joinWith ":" parts.dropLast))

/-- Which impacts are drawn. -/
structure RippleOptions (K : Type) where
  maxDepth : Int := 3
  includeTests : Bool := false
  minimumScore : K

/-- An impact on a ring. -/
structure RippleNode (K : Type) where
  id : String
  name : String
  file : String
  depth : Int
  severity : String
  score : K
  usageCount : Nat
  usageKinds : List String
  x : K
  y : K
  angle : K
  radius : K

/-- A ring. -/
structure RippleLayer (K : Type) where
  depth : Int
  severity : String
  nodes : List (RippleNode K)
  total : K

/-- The impacts of a change on rings. -/
structure Ripple (K : Type) where
  symbol : String
  file : String
  layers : List (RippleLayer K)

/-- The severities, the worst first. -/
def rippleSeverities : List String := ["critical", "high", "medium", "low", "none"]

/-- The severity of a level. -/
def severityOf (level : String) : String :=
  if impactLevels.contains level then Text.lower level else "none"

/-- The kind of edge for a kind of use. -/
def usageEdge? (kind : String) : Option String :=
  match kind with
  | "call" => some "calls"
  | "import" => some "imports"
  | "inheritance" => some "extends"
  | "reference" => some "references"
  | _ => none

/-- The worst of severities. -/
def worstSeverity (severities : List String) : String :=
  (rippleSeverities.find? severities.contains).getD "none"

section

variable {K : Type} [Geometry K]

/-- The impact is drawn. -/
def RippleOptions.draws (o : RippleOptions K) (i : Impact K) : Bool :=
  (o.includeTests || !isTestFile i.file) && !decide (i.score < o.minimumScore) &&
    decide (i.depth ≤ o.maxDepth)

/-- The radius of a ring. -/
def ringRadius (depth : Int) : K := Arith.real 100 + Arith.int (depth - 1) * Arith.real 80

/-- The place of an impact on its ring. -/
def rippleNode (i : Impact K) (count place : Nat) : RippleNode K :=
  let angle :=
    Arith.int 2 * Geometry.pi * Arith.nat place / Arith.nat count - Geometry.pi / Arith.int 2
  let radius : K := ringRadius i.depth
  { id := "ripple-" ++ intText i.depth ++ "-" ++ i.file ++ "-" ++ i.symbol
    name := i.symbol
    file := i.file
    depth := i.depth
    severity := severityOf i.level
    score := i.score
    usageCount := i.usages.length
    usageKinds := (i.usages.filterMap fun u => usageEdge? u.kind).eraseDups
    x := Arith.real 400 + radius * Geometry.cos angle
    y := Arith.real 400 + radius * Geometry.sin angle
    angle := angle
    radius := radius }

/-- The ring of a depth. -/
def rippleLayer (depth : Int) (impacts : List (Impact K)) : RippleLayer K where
  depth := depth
  severity := worstSeverity (impacts.map fun i => severityOf i.level)
  nodes := impacts.zipIdx.map fun (i, place) => rippleNode i impacts.length place
  total := Arith.round 2 (Arith.sum (impacts.map (·.score)))

/-- The rings of a report. -/
def rippleOf (o : RippleOptions K) (r : ImpactReport K) : Ripple K :=
  let drawn := r.impacts.filter o.draws
  let depths := (drawn.map (·.depth)).eraseDups.mergeSort fun a b => decide (a ≤ b)
  { symbol := r.symbol
    file := r.file
    layers := depths.map fun depth => rippleLayer depth (drawn.filter (·.depth == depth)) }

/-- How many impacts have a severity. -/
def Ripple.countOf (r : Ripple K) (severity : String) : Nat :=
  (r.layers.flatMap (·.nodes)).countP (·.severity == severity)

/-- How many impacts are drawn. -/
def Ripple.total (r : Ripple K) : Nat := (r.layers.flatMap (·.nodes)).length

end

/-- All numbers of a ripple. -/
def Ripple.numbers (r : Ripple Computed) : List Computed :=
  r.layers.flatMap fun layer =>
    layer.total :: layer.nodes.flatMap fun n => [n.radius, n.angle, n.x, n.y]

/-- The ripple, if its numbers can be computed. -/
def Ripple.checked (r : Ripple Computed) : Except NumberFault (Ripple Computed) := do
  let _ ← r.numbers.mapM Computed.amount
  return r

/-- The impact as a record. -/
def RippleNode.record (n : RippleNode Computed) : Json :=
  .record
    [("id", .str n.id), ("name", .str n.name), ("file_path", .str n.file), ("depth", .int n.depth),
      ("severity", .str n.severity), ("impact_score", .ofComputed n.score),
      ("usage_count", .nat n.usageCount), ("usage_types", .strs n.usageKinds),
      ("position", .record [("x", .ofComputed n.x), ("y", .ofComputed n.y)]),
      ("angle", .ofComputed n.angle), ("radius", .ofComputed n.radius)]

/-- The ring as a record. -/
def RippleLayer.record (l : RippleLayer Computed) : Json :=
  .record
    [("depth", .int l.depth), ("severity", .str l.severity),
      ("nodes", .arr (l.nodes.map RippleNode.record)), ("total_impact", .ofComputed l.total)]

/-- The ripple as a record. -/
def Ripple.record (r : Ripple Computed) : Json :=
  .record
    [("symbol", .str r.symbol), ("file_path", .str r.file),
      ("layers", .arr (r.layers.map RippleLayer.record)), ("total_affected", .nat r.total),
      ("critical_count", .nat (r.countOf "critical")), ("high_count", .nat (r.countOf "high")),
      ("medium_count", .nat (r.countOf "medium")), ("low_count", .nat (r.countOf "low"))]

end CodeAtlas
