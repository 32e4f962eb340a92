import CodeAtlas.Number.Decimal

/-!
# Computed numbers

The numbers that a graph carries, and those that are calculated from them.
-/

namespace CodeAtlas

/-! ## Amounts

Numbers keep whether they are whole or real: a whole number is written without a point. -/
inductive Amount where
  | whole (n : Int)
  | real (x : Float)
  | flag (b : Bool)

namespace Amount

instance : Inhabited Amount := ⟨.whole 0⟩

/-- The integer that an amount is, if it is no real number. -/
def whole? : Amount → Option Int
  | .whole n => some n
  | .flag b => some (if b then 1 else 0)
  | .real _ => none

/-- The amount as a real number. -/
def toFloat : Amount → Float
  | .whole n => nearestWhole n
  | .real x => x
  | .flag b => if b then 1 else 0

/-- The written form: a whole number has no point. -/
def text : Amount → String
  | .whole n => intText n
  | .real x => realText x
  | .flag b => if b then "true" else "false"

end Amount

/-! ## Computed numbers

Whole numbers stay whole under sums, differences and products; a quotient is real, and a whole
number that meets a real one becomes real. -/

/-- What stops a calculation. -/
inductive NumberFault where
  /-- A whole number or a quotient of two is beyond all real numbers. -/
  | tooLarge
  | divisionByZero
  /-- A function is not defined there. -/
  | outOfDomain
deriving DecidableEq

/-- A number, or what stopped its calculation. -/
inductive Computed where
  | whole (n : Int)
  | real (x : Float)
  | broken (fault : NumberFault)

namespace Computed

instance : Inhabited Computed := ⟨.whole 0⟩

/-- A whole number taken as a real one. -/
@[inline]
def asReal (f : Float → Computed) (n : Int) : Computed :=
  let x := nearestWhole n
  if x.isInf then .broken .tooLarge else f x

/-- An operation on two numbers of a kind; the first fault is kept. -/
@[specialize]
def combine (whole : Int → Int → Computed) (real : Float → Float → Computed) :
    Computed → Computed → Computed
  | .real x, .real y => real x y
  | .whole m, .whole n => whole m n
  | .real x, .whole n => asReal (real x) n
  | .whole m, .real y => asReal (real · y) m
  | .broken fault, _ => .broken fault
  | _, .broken fault => .broken fault

/-- The sum. -/
def add (a b : Computed) : Computed :=
  combine (fun m n => .whole (m + n)) (fun x y => .real (x + y)) a b

/-- The difference. -/
def sub (a b : Computed) : Computed :=
  combine (fun m n => .whole (m - n)) (fun x y => .real (x - y)) a b

/-- The product. -/
def mul (a b : Computed) : Computed :=
  combine (fun m n => .whole (m * n)) (fun x y => .real (x * y)) a b

/-- The quotient of whole numbers. -/
def wholeQuotient (m n : Int) : Computed :=
  if n = 0 then .broken .divisionByZero
  else if m.natAbs ≤ exactLimit ∧ n.natAbs ≤ exactLimit then .real (Float.ofInt m / Float.ofInt n)
  else
    let size := nearestQuotient m.natAbs n.natAbs
    if size.isInf then .broken .tooLarge
    else .real (signed (decide (m < 0) != decide (n < 0)) size)

/-- The quotient. -/
def div (a b : Computed) : Computed :=
  combine wholeQuotient
    (fun x y => if y == 0 then .broken .divisionByZero else .real (x / y)) a b

/-- The first is below the second, or there is a fault. -/
def below : Computed → Computed → Bool
  | .real x, .real y => decide (x < y)
  | .whole m, .whole n => decide (m < n)
  | .real x, .whole n =>
    if n.natAbs ≤ exactLimit then decide (x < Float.ofInt n) else compareWhole n x == some .gt
  | .whole m, .real y =>
    if m.natAbs ≤ exactLimit then decide (Float.ofInt m < y) else compareWhole m y == some .lt
  | _, _ => true

/-- The numbers are equal. With a fault on either side they are not. -/
def same : Computed → Computed → Bool
  | .real x, .real y => x == y
  | .whole m, .whole n => m == n
  | .real x, .whole n | .whole n, .real x =>
    if n.natAbs ≤ exactLimit then Float.ofInt n == x else compareWhole n x == some .eq
  | _, _ => false

/-- The first is at most the second, and there is no fault. -/
def atMost (a b : Computed) : Bool :=
  match a, b with
  | .broken _, _ | _, .broken _ => false
  | _, _ => a.below b || a.same b

/-- One of two numbers, unless one of them is a fault. -/
@[inline]
def choose (first : Bool) (a b : Computed) : Computed :=
  match a, b with
  | .broken fault, _ => .broken fault
  | _, .broken fault => .broken fault
  | _, _ => if first then a else b

/-- The integer below. -/
def floor? : Computed → Except NumberFault Int
  | .whole n => .ok n
  | .real x =>
    if x.isNaN then .error .outOfDomain
    else if x.isInf then .error .tooLarge
    else .ok (floorInt x)
  | .broken fault => .error fault

/-- The number over `2 ^ k`: real for a negative power, zero if the power is large enough. -/
def overPower (a : Computed) (k : Int) : Computed :=
  if k < 0 then
    if (nearestWhole k).isInf then .broken .tooLarge
    else div a (.real (nearestQuotient 1 (Nat.pow 2 (min (-k).toNat 1100))))
  else
    match a with
    | .whole n => wholeQuotient n (Nat.pow 2 (min k.toNat (n.natAbs.log2 + 1100)))
    | _ => div a (.whole (Nat.pow 2 k.toNat))

/-- A function of real numbers, where it is defined. -/
@[specialize]
def ofReal (defined : Float → Bool) (f : Float → Float) : Computed → Computed
  | .real x => if defined x then .real (f x) else .broken .outOfDomain
  | .whole n => asReal (fun x => if defined x then .real (f x) else .broken .outOfDomain) n
  | .broken fault => .broken fault

instance instArith : Arith Computed where
  add := add
  sub := sub
  mul := mul
  div := div
  lt a b := a.below b = true
  le a b := a.atMost b = true
  int := .whole
  decLt _ _ := inferInstanceAs (Decidable (_ = true))
  decLe _ _ := inferInstanceAs (Decidable (_ = true))
  floor a := a.floor?.toOption.getD 0
  round places
    | .real x => .real (roundPlaces places x)
    | a => a
  max a b := choose (!a.below b) a b
  min a b := choose (!b.below a) a b
  overTwoTo := overPower

instance instGeometry : Geometry Computed where
  sqrt := ofReal (fun x => !decide (x < 0)) Float.sqrt
  sin := ofReal (fun x => !x.isInf) Float.sin
  cos := ofReal (fun x => !x.isInf) Float.cos
  pi := .real halfTurn

/-- The number as an amount. -/
def amount : Computed → Except NumberFault Amount
  | .whole n => .ok (.whole n)
  | .real x => .ok (.real x)
  | .broken fault => .error fault

/-- The number in six digits. -/
def generalText : Computed → Except NumberFault String
  | .real x => .ok (CodeAtlas.generalText x)
  | .whole n =>
    let x := nearestWhole n
    if x.isInf then .error .tooLarge else .ok (CodeAtlas.generalText x)
  | .broken fault => .error fault

/-- The number with a count of places. -/
def fixedText (places : Nat) : Computed → String
  | .real x => CodeAtlas.fixedText places x
  | .whole n => CodeAtlas.fixedText places (nearestWhole n)
  | .broken _ => ""

end Computed

namespace Amount

/-- The amount as a number to compute with; a flag counts as one or zero. -/
def computed : Amount → Computed
  | .whole n => .whole n
  | .real x => .real x
  | .flag b => .whole (if b then 1 else 0)

/-- The first amount is below the second. -/
def below (a b : Amount) : Bool := a.computed.below b.computed

/-- The first amount is at least the second. -/
def atLeast (a b : Amount) : Bool := b.computed.atMost a.computed

/-- The value moved into a range; of two equal amounts the end is taken. -/
def clamp (value low high : Amount) : Amount :=
  let upper := if value.below high then value else high
  if low.below upper then upper else low

/-- The amount is zero. -/
def isZero (a : Amount) : Bool := a.computed.same (.whole 0)

end Amount

end CodeAtlas
