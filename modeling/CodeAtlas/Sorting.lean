/-!
# Sorting

Sorting starts from the runs that a list has already, lengthens short ones, and merges them. The
comparison may leave some items without a place, such as scores that are no numbers, so what comes
out depends on which items are compared.
-/

namespace CodeAtlas.Sorting

/-! ## Runs

In a run no item is below the one before it, or each one is. A short run takes in the items after
it, each put by halving where the comparison sends it. -/

variable {α : Type}

/-! ## Looking for a place -/

/-- How many items go ahead, at least `low` and at most `high`, found by halving; `upper` picks the
second of two in the middle. -/
def halve (goes : α → Bool) (upper : Bool) (items : Array α) (low high : Nat) : Nat :=
  if _h : low < high then
    let middle := low + (high - low - if upper then 0 else 1) / 2
    if items[middle]?.any goes then halve goes upper items (middle + 1) high
    else halve goes upper items low middle
  else low
termination_by high - low
decreasing_by all_goals split <;> omega

/-- The last item known to go ahead and the next to look at, after strides that double. -/
def strides (goes : α → Bool) (items : Array α) (last next : Nat) : Nat × Nat :=
  if _h : next < items.size then
    if goes items[next] then strides goes items next (2 * next + 1) else (last, next)
  else (last, items.size)
termination_by items.size - next
decreasing_by omega

/-- How many items at the front go ahead, by strides and halving. -/
def reach (goes : α → Bool) (upper : Bool) (items : List α) : Nat :=
  if items.head?.any goes then
    let items := items.toArray
    let (last, next) := strides goes items 0 1
    halve goes upper items (last + 1) next
  else 0

/-! ## Runs -/

variable (below : α → α → Bool)

/-- The items after `last` while each stands to the one before as `goesOn` says. -/
def splitRun (goesOn : α → α → Bool) (last : α) : List α → List α × List α
  | [] => ([], [])
  | x :: rest =>
    if goesOn last x then
      let (run, rest) := splitRun goesOn x rest
      (x :: run, rest)
    else ([], x :: rest)

/-- The run at the front, turned round if it falls, and the rest. -/
def openingRun : List α → List α × List α
  | x :: y :: rest =>
    if below y x then
      let (run, rest) := splitRun (fun a b => below b a) y rest
      ((x :: y :: run).reverse, rest)
    else
      let (run, rest) := splitRun (fun a b => !below b a) y rest
      (x :: y :: run, rest)
  | xs => (xs, [])

/-- An item put in its place. -/
def putAmong (items : Array α) (item : α) : Array α :=
  let place := halve (fun other => !below item other) true items 0 items.size
  items.extract 0 place ++ #[item] ++ items.extract place items.size

/-- The run at the front, filled up to a least length, and the rest. -/
def filledRun (least : Nat) (items : List α) : List α × List α :=
  let (run, rest) := openingRun below items
  let missing := least - run.length
  (((rest.take missing).foldl (putAmong below) run.toArray).toList, rest.drop missing)

/-- The least length of a run: its leading six bits, and one more if another is set. -/
def leastRun (n : Nat) (more : Bool) : Nat :=
  if _h : n < 64 then (if more then n + 1 else n) else leastRun (n / 2) (more || n % 2 == 1)
termination_by n
decreasing_by omega

/-- The runs, each lengthened to the least length. -/
def runsUpTo (least : Nat) : Nat → List α → List (List α)
  | 0, _ => []
  | _ + 1, [] => []
  | count + 1, items =>
    let (run, rest) := filledRun below least items
    run :: runsUpTo least count rest

/-- The runs of a list. -/
def runsOf (items : List α) : List (List α) :=
  runsUpTo below (leastRun items.length false) items.length items

/-! ## Merging

The shorter run is held aside, and its last item is kept for the end. When one run has won often
enough in a row, whole stretches go over at once, for as long as they are long; how often is enough
falls while stretches are long and grows when they are not. -/

/-- Two runs being merged. -/
structure Merge (α : Type) where
  done : List α
  held : List α
  other : List α

/-- From which end runs are merged. -/
structure MergeSide (α : Type) where
  before : α → α → Bool
  /-- Of two items in the middle the second is looked at. -/
  upper : Bool
  /-- Stretches are looked for in the run held aside first. -/
  heldFirst : Bool

/-- How long a stretch has to be. -/
def longStretch : Nat := 7

namespace Merge

/-- The merge needs no more comparison. -/
def isOver (m : Merge α) : Bool := m.held.length ≤ 1 || m.other.isEmpty

/-- The items in the end. -/
def items (m : Merge α) : List α := m.done.reverse ++ m.other ++ m.held

/-- Items of the run held aside taken. -/
def takeHeld (m : Merge α) (count : Nat) : Merge α :=
  { m with done := (m.held.take count).reverse ++ m.done, held := m.held.drop count }

/-- Items of the other run taken. -/
def takeOther (m : Merge α) (count : Nat) : Merge α :=
  { m with done := (m.other.take count).reverse ++ m.done, other := m.other.drop count }

variable (side : MergeSide α)

/-- Items gone over one by one until a run wins `enough` times, at most `count`. -/
def oneByOne (enough : Nat) : (count heldRow otherRow : Nat) → Merge α → Merge α
  | 0, _, _, m => m
  | count + 1, heldRow, otherRow, m =>
    match m.held, m.other with
    | x :: _, y :: _ =>
      let (m, heldRow, otherRow) :=
        if side.before y x then (m.takeOther 1, 0, otherRow + 1) else (m.takeHeld 1, heldRow + 1, 0)
      if m.isOver || enough ≤ heldRow || enough ≤ otherRow then m
      else oneByOne enough count heldRow otherRow m
    | _, _ => m

/-- A stretch of the run held aside and one other item, with its length. -/
def heldStretch (m : Merge α) : Merge α × Nat :=
  let length := match m.other with
    | [] => 0
    | y :: _ => reach (fun x => !side.before y x) side.upper m.held
  let m := m.takeHeld length
  (if m.isOver then m else m.takeOther 1, length)

/-- A stretch of the other run and one item held aside, with its length. -/
def otherStretch (m : Merge α) : Merge α × Nat :=
  let length := match m.held with
    | [] => 0
    | x :: _ => reach (fun y => side.before y x) side.upper m.other
  let m := m.takeOther length
  (if m.isOver then m else m.takeHeld 1, length)

/-- A stretch of each run gone over; with the length of the longer one. -/
def bothStretches (m : Merge α) : Merge α × Nat :=
  let first := if side.heldFirst then heldStretch side else otherStretch side
  let second := if side.heldFirst then otherStretch side else heldStretch side
  let (m, length) := first m
  if m.isOver then (m, length)
  else
    let (m, more) := second m
    (m, max length more)

/-- Stretches gone over while they are long, at most `count`; with what is enough then. -/
def byStretches : (count enough : Nat) → Merge α → Merge α × Nat
  | 0, enough, m => (m, enough)
  | count + 1, enough, m =>
    let enough := max 1 (enough - 1)
    let (m, length) := bothStretches side m
    if m.isOver then (m, enough)
    else if longStretch ≤ length then byStretches count enough m
    else (m, enough + 1)

/-- The merge gone on with. -/
def goOn : (count enough : Nat) → Merge α → Merge α × Nat
  | 0, enough, m => (m, enough)
  | count + 1, enough, m =>
    let size := m.held.length + m.other.length
    let m := oneByOne side enough size 0 0 m
    if m.isOver then (m, enough)
    else
      let (m, enough) := byStretches side size (enough + 1) m
      if m.isOver then (m, enough) else goOn count enough m

/-- The merge of two runs. -/
def run (enough : Nat) (held other : List α) : List α × Nat :=
  let m := Merge.takeOther ⟨[], held, other⟩ 1
  let (m, enough) :=
    if m.isOver then (m, enough) else goOn side (held.length + other.length) enough m
  (m.items, enough)

end Merge

/-- A merge from the front, with the first run held aside. -/
def fromFront (below : α → α → Bool) : MergeSide α := ⟨below, true, true⟩

/-- The merge from the end. -/
def fromEnd (below : α → α → Bool) : MergeSide α := ⟨fun y x => below x y, false, false⟩

/-- Two runs merged but for what is in place already, and what is enough then. -/
def mergeRuns (below : α → α → Bool) (enough : Nat) (a b : List α) : List α × Nat :=
  let front := match b with
    | [] => a.length
    | y :: _ => reach (fun x => !below y x) true a
  let first := a.drop front
  let back := match first.getLast? with
    | none => b.length
    | some x => reach (fun y => !below y x) false b.reverse
  let second := b.take (b.length - back)
  let (merged, enough) :=
    if first.isEmpty || second.isEmpty then (first ++ second, enough)
    else if first.length ≤ second.length then Merge.run (fromFront below) enough first second
    else
      let (merged, enough) := Merge.run (fromEnd below) enough second.reverse first.reverse
      (merged.reverse, enough)
  (a.take front ++ merged ++ b.drop (b.length - back), enough)

/-! ## Ranking

The power of a boundary between two runs is the first binary place in which their middles differ, as
fractions of the whole list. Boundaries of higher power are merged first. -/

/-- The first binary place from `place` on in which fractions over `n` differ. -/
def firstDifference (n : Nat) : (count place a b : Nat) → Nat
  | 0, place, _, _ => place
  | count + 1, place, a, b =>
    if a / n = b / n then firstDifference n count (place + 1) (2 * a) (2 * b) else place

/-- The power of the boundary between two runs of a list of `n`. -/
def boundaryPower (n start first second : Nat) : Nat :=
  let middle := 2 * start + first
  firstDifference n n 1 middle (middle + first + second)

/-- A run that waits for others. -/
structure WaitingRun (α : Type) where
  start : Nat
  items : List α
  /-- The power of the boundary behind it. -/
  power : Nat

/-- The runs that wait, the last first. -/
structure RunStack (α : Type) where
  runs : List (WaitingRun α)
  enough : Nat

namespace RunStack

/-- The last runs merged while the boundary before the last has a higher power. -/
def settled (power enough : Nat) : WaitingRun α → List (WaitingRun α) → RunStack α
  | last, [] => ⟨[{ last with power }], enough⟩
  | last, r :: rest =>
    if power < r.power then
      let (items, enough) := mergeRuns below enough r.items last.items
      settled power enough { r with items } rest
    else ⟨{ last with power } :: r :: rest, enough⟩

/-- One more run. -/
def push (n : Nat) (s : RunStack α) (items : List α) : RunStack α :=
  match s.runs with
  | [] => { s with runs := [⟨0, items, 0⟩] }
  | last :: rest =>
    let start := last.start + last.items.length
    let power := boundaryPower n last.start last.items.length items.length
    let s := settled below power s.enough last rest
    { s with runs := ⟨start, items, 0⟩ :: s.runs }

/-- All runs merged; the one before the last two goes first if it is shorter. -/
def merged : Nat → RunStack α → List α
  | count + 1, ⟨last :: r :: before :: rest, enough⟩ =>
    if before.items.length < last.items.length then
      let (items, enough) := mergeRuns below enough before.items r.items
      merged count ⟨last :: { before with items } :: rest, enough⟩
    else
      let (items, enough) := mergeRuns below enough r.items last.items
      merged count ⟨{ r with items } :: before :: rest, enough⟩
  | _, ⟨[last, r], enough⟩ => (mergeRuns below enough r.items last.items).1
  | _, ⟨runs, _⟩ => runs.reverse.flatMap (·.items)

end RunStack

/-- The items in order. -/
def arranged (items : List α) : List α :=
  let runs := runsOf below items
  let stack := runs.foldl (RunStack.push below items.length) ⟨[], longStretch⟩
  RunStack.merged below runs.length stack

/-- The items in falling order. -/
def ranked (items : List α) : List α := (arranged below items.reverse).reverse

end CodeAtlas.Sorting
