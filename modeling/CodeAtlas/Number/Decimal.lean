import CodeAtlas.Number.Binary

/-!
# Decimal text of numbers

Choosing digits and laying them out are kept apart. A `Decimal` is a run of digits with the place
of its leading digit; it is selected from the exact value of a number, either with a set count of
significant digits or with the fewest digits that read back to the same number.
-/

namespace CodeAtlas

/-- The digits of a natural number. -/
def natText (n : Nat) : String := String.ofList (Nat.toDigits 10 n)

/-- The digits of an integer. -/
def intText (n : Int) : String :=
  if n < 0 then "-" ++ natText n.natAbs else natText n.natAbs

/-- Digits and the place of the last one. -/
structure Decimal where
  digits : Nat
  exponent : Int
deriving Repr, DecidableEq

namespace Decimal

/-- How many digits a number has. -/
def digitCount (n : Nat) : Nat := (Nat.toDigits 10 n).length

/-- The largest `k` with `10 ^ k ≤ num / den`. -/
def leadingPlace (num den : Nat) : Int :=
  let guess : Int := (digitCount num : Int) - digitCount den
  if den * Nat.pow 10 guess.toNat ≤ num * Nat.pow 10 (-guess).toNat then guess else guess - 1

/-- The decimal without zeros at its end. -/
def strip : Nat → Decimal → Decimal
  | 0, d => d
  | fuel + 1, d =>
    if d.digits ≠ 0 ∧ d.digits % 10 = 0 then strip fuel ⟨d.digits / 10, d.exponent + 1⟩ else d

/-- The decimal without zeros at its end, zero as one. -/
def normal (d : Decimal) : Decimal :=
  if d.digits = 0 then ⟨0, 0⟩ else strip (digitCount d.digits) d

/-- A count of leading digits. -/
def significant (b : Binary) (count : Nat) : Decimal :=
  let (num, den) := b.ratio 0
  let unit := leadingPlace num den - ((count : Int) - 1)
  normal ⟨b.rounded (-unit), unit⟩

/-- Compare `a * 10 ^ i` with `n * 2 ^ j`. -/
def compareScaled (a : Nat) (i : Int) (n : Nat) (j : Int) : Ordering :=
  compare (a * Nat.pow 10 i.toNat * Nat.pow 2 (-j).toNat)
    (n * Nat.pow 2 j.toNat * Nat.pow 10 (-i).toNat)

/-- The decimal is nearest to `b` of all numbers. -/
def readsBack (b : Binary) (d : Decimal) : Bool :=
  let low := if b.narrowBelow then 4 * b.mantissa - 1 else 4 * b.mantissa - 2
  let even := b.mantissa % 2 == 0
  let fromLow := compareScaled d.digits d.exponent low (b.exponent - 2)
  let toHigh := compareScaled d.digits d.exponent (4 * b.mantissa + 2) (b.exponent - 2)
  (fromLow == .gt || (even && fromLow == .eq)) && (toHigh == .lt || (even && toHigh == .eq))

/-- The better neighbour on the grid `10 ^ unit` that reads back. -/
def onGrid (b : Binary) (unit : Int) : Option Decimal :=
  let (num, den) := b.ratio (-unit)
  let below : Decimal := ⟨num / den, unit⟩
  let above : Decimal := ⟨num / den + 1, unit⟩
  let near : Decimal := ⟨roundDiv num den, unit⟩
  match readsBack b below, readsBack b above with
  | true, true => some near
  | true, false => some below
  | false, true => some above
  | false, false => none

/-- The fewest digits that read back; the exact decimal if seventeen do not. -/
def shortest (b : Binary) : Decimal :=
  let (num, den) := b.ratio 0
  let lead := leadingPlace num den
  let grids := (List.range 17).map fun n : Nat => lead - (n : Int)
  let exact : Decimal := ⟨(b.ratio (-(min b.exponent 0))).1, min b.exponent 0⟩
  normal ((grids.findSome? (onGrid b)).getD exact)

end Decimal

/-- How a number is laid out. -/
structure NumberStyle where
  /-- The leading places that are written positionally start here … -/
  plainFrom : Int
  /-- … and end before this one. -/
  plainBelow : Int
  /-- A whole number keeps its `.0`. -/
  pointZero : Bool

namespace NumberStyle

/-- The text of a run of digits with a point after the first `n`. -/
def pointAfter (digits : List Char) (n : Nat) : List Char :=
  let whole := digits.take n
  let rest := digits.drop n
  if rest = [] then whole else whole ++ '.' :: rest

/-- A positive decimal in this style, positional or with an exponent. -/
def layOut (style : NumberStyle) (d : Decimal) : String :=
  let digits := Nat.toDigits 10 d.digits
  let lead : Int := d.exponent + digits.length - 1
  let tail := if style.pointZero then ['.', '0'] else []
  String.ofList <|
    if style.plainFrom ≤ lead ∧ lead < style.plainBelow then
      if 0 ≤ d.exponent then digits ++ List.replicate d.exponent.toNat '0' ++ tail
      else if 0 ≤ lead then pointAfter digits (lead.toNat + 1)
      else '0' :: '.' :: (List.replicate (-lead - 1).toNat '0' ++ digits)
    else
      let places := Nat.toDigits 10 lead.natAbs
      let padded := if places.length < 2 then '0' :: places else places
      pointAfter digits 1 ++ 'e' :: (if lead < 0 then '-' else '+') :: padded

/-- A number in this style, its digits chosen by `select`. -/
def write (style : NumberStyle) (select : Binary → Decimal) (x : Float) : String :=
  match Binary.ofFloat? x with
  | none => if x.isNaN then "nan" else if x < 0 then "-inf" else "inf"
  | some b =>
    let size := if b.mantissa = 0 then (if style.pointZero then "0.0" else "0")
      else style.layOut (select b)
    if b.negative then "-" ++ size else size

end NumberStyle

/-- The fewest digits, positional from `10 ^ -4` to below `10 ^ 16`, with a point. -/
def realStyle : NumberStyle := ⟨-4, 16, true⟩

/-- The text of a real number. -/
def realText (x : Float) : String := realStyle.write Decimal.shortest x

/-- A real number in six digits. -/
def generalText (x : Float) : String :=
  NumberStyle.write ⟨-4, 6, false⟩ (Decimal.significant · 6) x

/-- A real number with a count of places. -/
def fixedText (places : Nat) (x : Float) : String :=
  match Binary.ofFloat? x with
  | none => if x.isNaN then "nan" else if x < 0 then "-inf" else "inf"
  | some b =>
    let digits := Nat.toDigits 10 (b.rounded places)
    let padded := List.replicate (places + 1 - digits.length) '0' ++ digits
    let size := NumberStyle.pointAfter padded (padded.length - places)
    String.ofList (if b.negative then '-' :: size else size)

end CodeAtlas
