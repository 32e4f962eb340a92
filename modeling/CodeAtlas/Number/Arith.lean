/-!
# Arithmetic over a scalar type

The graph measures and the placements are written once, for any scalar type. The program runs
them on floating-point numbers, or on numbers of which some are whole; over the rationals the same
definitions are exact.
-/

namespace CodeAtlas

/-- The operations of a scalar type. -/
class Arith (K : Type) extends Add K, Sub K, Mul K, Div K, LT K, LE K where
  int : Int → K
  decLt : ∀ a b : K, Decidable (a < b)
  decLe : ∀ a b : K, Decidable (a ≤ b)
  floor : K → Int
  /-- The nearest number with the given count of decimal places, a half going to the even one. -/
  round : Nat → K → K
  /-- The larger of two scalars, the first one if they are equal. -/
  max : K → K → K := fun a b => @ite K (a < b) (decLt a b) b a
  min : K → K → K := fun a b => @ite K (b < a) (decLt b a) b a
  overTwoTo : K → Int → K := fun a k =>
    if 0 ≤ k then a / int (Nat.pow 2 k.toNat) else a / (int 1 / int (Nat.pow 2 (-k).toNat))

instance Arith.decidableLt {K : Type} [Arith K] (a b : K) : Decidable (a < b) := Arith.decLt a b

instance Arith.decidableLe {K : Type} [Arith K] (a b : K) : Decidable (a ≤ b) := Arith.decLe a b

/-- Scalars with roots and angles. -/
class Geometry (K : Type) extends Arith K where
  sqrt : K → K
  sin : K → K
  cos : K → K
  pi : K

namespace Arith

variable {K : Type} [Arith K]

/-- A natural number as a scalar. -/
@[inline]
def nat (n : Nat) : K := int (Int.ofNat n)

/-- A quotient of integers. -/
@[inline]
def ratio (a b : Int) : K := int a / int b

/-- The value moved into a range; the lower end wins if the ends cross. -/
@[inline]
def clamp (value low high : K) : K := max low (min high value)

/-- An integer as a quotient, which tells it apart from a whole number. -/
@[inline]
def real (n : Int) : K := ratio n 1

/-- The sum from the left. -/
def sum (xs : List K) : K := xs.foldl (· + ·) (int 0)

/-- The largest value, at least zero. -/
def maxWithZero (xs : List K) : K := xs.foldl max (int 0)

/-- The value is zero. -/
@[inline]
def isZero (a : K) : Bool := decide (a ≤ int 0) && decide (int 0 ≤ a)

end Arith

end CodeAtlas
