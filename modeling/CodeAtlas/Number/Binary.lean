import CodeAtlas.Number.Arith

/-!
# Floating-point numbers as exact binary fractions

A finite number is `mantissa * 2 ^ exponent` with a sign, so rounding it to decimal places and
taking its integer part are integer arithmetic.
-/

namespace CodeAtlas

/-- The quotient rounded to the nearest, a half to the even one. -/
def roundDiv (num den : Nat) : Nat :=
  let q := num / den
  let r := num % den
  if 2 * r < den then q
  else if den < 2 * r then q + 1
  else if q % 2 = 0 then q else q + 1

/-- A finite number by sign, mantissa and exponent. -/
structure Binary where
  negative : Bool
  mantissa : Nat
  exponent : Int
  /-- The gap to the next number towards zero is half the gap to the one away from it. -/
  narrowBelow : Bool
deriving Repr, DecidableEq

namespace Binary

/-- The parts of a finite number. -/
def ofFloat? (x : Float) : Option Binary :=
  let bits := x.toBits
  let negative := bits >>> 63 == 1
  let e := ((bits >>> 52) &&& 0x7FF).toNat
  let f := (bits &&& 0xFFFFFFFFFFFFF).toNat
  if e = 0x7FF then none
  else if e = 0 then some ⟨negative, f, -1074, false⟩
  else some ⟨negative, Nat.pow 2 52 + f, (e : Int) - 1075, f == 0 && decide (1 < e)⟩

/-- The number times ten to a power, as a quotient. -/
def ratio (b : Binary) (k : Int) : Nat × Nat :=
  (b.mantissa * Nat.pow 2 b.exponent.toNat * Nat.pow 10 k.toNat,
    Nat.pow 2 (-b.exponent).toNat * Nat.pow 10 (-k).toNat)

/-- The number times ten to a power, rounded. -/
def rounded (b : Binary) (k : Int) : Nat :=
  let (num, den) := b.ratio k
  roundDiv num den

end Binary

/-- The integer of a sign and a size. -/
def signedInt (negative : Bool) (size : Nat) : Int := if negative then -(size : Int) else size

/-- The number of a sign and a size. -/
def signed (negative : Bool) (size : Float) : Float := if negative then -size else size

/-! ## The nearest number -/

/-- The largest `k` with `2 ^ k ≤ num / den`. -/
def leadingBit (num den : Nat) : Int :=
  let guess : Int := (num.log2 : Int) - den.log2
  if den * Nat.pow 2 guess.toNat ≤ num * Nat.pow 2 (-guess).toNat then guess else guess - 1

/-- The bits of infinity. -/
def infiniteBits : Nat := 0x7FF * Nat.pow 2 52

/-- The bits of the number nearest to a positive quotient, of 53 binary digits or fewer; rounding up
to a power of two carries into the exponent. -/
def nearestBits (num den : Nat) : Nat :=
  let unit := max (leadingBit num den - 52) (-1074)
  let size := roundDiv (num * Nat.pow 2 (-unit).toNat) (den * Nat.pow 2 unit.toNat)
  min ((unit + 1074).toNat * Nat.pow 2 52 + size) infiniteBits

/-- The number nearest to a quotient, a half to the even one; infinite if beyond all. -/
def nearestQuotient (num den : Nat) : Float :=
  if num = 0 then 0 else Float.ofBits (UInt64.ofNat (nearestBits num den))

/-- Where naturals cease to be exact. -/
def exactLimit : Nat := Nat.pow 2 53

/-- The number nearest to an integer, infinite if beyond all. -/
def nearestWhole (n : Int) : Float :=
  if n.natAbs ≤ exactLimit then Float.ofInt n
  else signed (decide (n < 0)) (nearestQuotient n.natAbs 1)

/-- The integer compared with a number. -/
def compareWhole (n : Int) (x : Float) : Option Ordering :=
  match Binary.ofFloat? x with
  | some b =>
    let (num, den) := b.ratio 0
    some (compare (n * den) (signedInt b.negative num))
  | none => if x.isNaN then none else some (if x < 0 then .gt else .lt)

/-! ## Rounding -/

/-- The number with a count of decimal places. -/
def roundPlaces (places : Nat) (x : Float) : Float :=
  match Binary.ofFloat? x with
  | none => x
  | some b => signed b.negative (nearestQuotient (b.rounded places) (Nat.pow 10 places))

/-- The largest integer not above the number; zero if it is not finite. -/
def floorInt (x : Float) : Int :=
  match Binary.ofFloat? x with
  | none => 0
  | some b =>
    let (num, den) := b.ratio 0
    Int.fdiv (signedInt b.negative num) den

/-- Half a turn. -/
def halfTurn : Float := Float.ofBits 0x400921FB54442D18

instance : Arith Float where
  int := nearestWhole
  decLt := inferInstance
  decLe := inferInstance
  floor := floorInt
  round := roundPlaces

instance : Geometry Float where
  sqrt := Float.sqrt
  sin := Float.sin
  cos := Float.cos
  pi := halfTurn

end CodeAtlas
