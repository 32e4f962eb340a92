import CodeAtlas.Number.Arith
import Mathlib.Analysis.SpecialFunctions.Trigonometric.Basic

/-!
# Exact calculations

What cannot be calculated is undefined, and so is whatever is calculated from it. Of square root,
sine and cosine all that is known is that a root vanishes at no positive number, and that sine and
cosine keep within one.

* `Gauge`: square root, sine, cosine and half turn, with the usual ones in `Gauge.plane`.
* `Exact`: the scalars, each a real number or undefined.
* `Exact.number_add`, `Exact.Defined.add` and the like: what the operations do.
-/

namespace CodeAtlas

/-! ## Rounding -/

/-- The nearest integer, a half going to the even one. -/
noncomputable def nearestEven (x : ℝ) : ℤ :=
  if Int.fract x < 1 / 2 then ⌊x⌋
  else if 1 / 2 < Int.fract x then ⌊x⌋ + 1
  else if ⌊x⌋ % 2 = 0 then ⌊x⌋ else ⌊x⌋ + 1

/-- The nearest number with that many decimal places, a half going to the even one. -/
noncomputable def roundTo (places : ℕ) (x : ℝ) : ℝ := nearestEven (x * 10 ^ places) / 10 ^ places

section Rounding

variable {x : ℝ} {n : ℤ}

/-- The nearest integer is the one below, or the one above if the number is no integer. -/
theorem nearestEven_cases (x : ℝ) :
    nearestEven x = ⌊x⌋ ∨ nearestEven x = ⌊x⌋ + 1 ∧ (⌊x⌋ : ℝ) < x := by
  have hfract : x - ⌊x⌋ = Int.fract x := rfl
  unfold nearestEven
  split_ifs
  · exact Or.inl rfl
  · exact Or.inr ⟨rfl, by linarith⟩
  · exact Or.inl rfl
  · exact Or.inr ⟨rfl, by linarith⟩

theorem le_nearestEven (h : (n : ℝ) ≤ x) : n ≤ nearestEven x := by
  have hfloor := Int.le_floor.mpr h
  rcases nearestEven_cases x with heq | ⟨heq, -⟩
  · omega
  · omega

theorem nearestEven_le (h : x ≤ n) : nearestEven x ≤ n := by
  rcases nearestEven_cases x with heq | ⟨heq, hlt⟩
  · rw [heq]
    exact Int.cast_le.mp ((Int.floor_le x).trans h)
  · rw [heq]
    exact Int.cast_lt.mp (hlt.trans_le h)

/-- **Rounding crosses no integer** from above. -/
theorem le_roundTo (places : ℕ) (h : (n : ℝ) ≤ x) : (n : ℝ) ≤ roundTo places x := by
  have hpow : (0 : ℝ) < 10 ^ places := by positivity
  have hscaled : ((n * 10 ^ places : ℤ) : ℝ) ≤ x * 10 ^ places := by
    push_cast
    exact mul_le_mul_of_nonneg_right h hpow.le
  rw [roundTo, le_div_iff₀ hpow]
  exact_mod_cast le_nearestEven hscaled

/-- **Rounding crosses no integer** from below. -/
theorem roundTo_le (places : ℕ) (h : x ≤ n) : roundTo places x ≤ n := by
  have hpow : (0 : ℝ) < 10 ^ places := by positivity
  have hscaled : x * 10 ^ places ≤ ((n * 10 ^ places : ℤ) : ℝ) := by
    push_cast
    exact mul_le_mul_of_nonneg_right h hpow.le
  rw [roundTo, div_le_iff₀ hpow]
  exact_mod_cast nearestEven_le hscaled

end Rounding

/-! ## Scalars -/

/-- A square root, a sine, a cosine and a half turn. -/
structure Gauge where
  sqrt : ℝ → ℝ
  sin : ℝ → ℝ
  cos : ℝ → ℝ
  pi : ℝ
  sqrt_ne_zero : ∀ x, 0 < x → sqrt x ≠ 0
  abs_sin_le : ∀ x, |sin x| ≤ 1
  abs_cos_le : ∀ x, |cos x| ≤ 1

/-- The usual ones. -/
noncomputable def Gauge.plane : Gauge where
  sqrt := Real.sqrt
  sin := Real.sin
  cos := Real.cos
  pi := Real.pi
  sqrt_ne_zero := fun _ hx => (Real.sqrt_pos.mpr hx).ne'
  abs_sin_le := Real.abs_sin_le_one
  abs_cos_le := Real.abs_cos_le_one

/-- The outcome of an exact calculation. -/
inductive Exact (gauge : Gauge) where
  | number (x : ℝ)
  | undefined

namespace Exact

variable {gauge : Gauge}

def combine (f : ℝ → ℝ → Exact gauge) : Exact gauge → Exact gauge → Exact gauge
  | .number x, .number y => f x y
  | _, _ => .undefined

def apply (f : ℝ → Exact gauge) : Exact gauge → Exact gauge
  | .number x => f x
  | .undefined => .undefined

/-- Two numbers are in a relation; what is undefined is in none. -/
def Compares (r : ℝ → ℝ → Prop) : Exact gauge → Exact gauge → Prop
  | .number x, .number y => r x y
  | _, _ => False

open Classical in
noncomputable instance instGeometry : Geometry (Exact gauge) where
  add := combine fun x y => .number (x + y)
  sub := combine fun x y => .number (x - y)
  mul := combine fun x y => .number (x * y)
  div := combine fun x y => if y = 0 then .undefined else .number (x / y)
  lt := Compares (· < ·)
  le := Compares (· ≤ ·)
  int n := .number n
  decLt _ _ := Classical.propDecidable _
  decLe _ _ := Classical.propDecidable _
  floor
    | .number x => ⌊x⌋
    | .undefined => 0
  round places := apply fun x => .number (roundTo places x)
  max := combine fun x y => .number (x ⊔ y)
  min := combine fun x y => .number (x ⊓ y)
  sqrt := apply fun x => if x < 0 then .undefined else .number (gauge.sqrt x)
  sin := apply fun x => .number (gauge.sin x)
  cos := apply fun x => .number (gauge.cos x)
  pi := .number gauge.pi

variable {x y : ℝ}

@[simp]
theorem number_add (x y : ℝ) : (number x + number y : Exact gauge) = number (x + y) := rfl

@[simp]
theorem number_sub (x y : ℝ) : (number x - number y : Exact gauge) = number (x - y) := rfl

@[simp]
theorem number_mul (x y : ℝ) : (number x * number y : Exact gauge) = number (x * y) := rfl

theorem number_div (x : ℝ) (hy : y ≠ 0) : (number x / number y : Exact gauge) = number (x / y) :=
  if_neg hy

@[simp]
theorem int_eq (n : ℤ) : (Arith.int n : Exact gauge) = number n := rfl

@[simp]
theorem nat_eq (n : ℕ) : (Arith.nat n : Exact gauge) = number n :=
  congrArg number (Int.cast_natCast n)

theorem ratio_eq (a : ℤ) {b : ℤ} (hb : b ≠ 0) :
    (Arith.ratio a b : Exact gauge) = number (a / b) :=
  number_div _ (Int.cast_ne_zero.mpr hb)

@[simp]
theorem min_eq (x y : ℝ) : (Arith.min (number x) (number y) : Exact gauge) = number (min x y) := rfl

@[simp]
theorem clamp_eq (x low high : ℝ) :
    (Arith.clamp (number x) (number low) (number high) : Exact gauge) =
      number (max low (min high x)) := rfl

@[simp]
theorem number_lt : (number x : Exact gauge) < number y ↔ x < y := Iff.rfl

@[simp]
theorem number_le : (number x : Exact gauge) ≤ number y ↔ x ≤ y := Iff.rfl

theorem isZero_iff : Arith.isZero (number x : Exact gauge) = true ↔ x = 0 := by
  rw [Arith.isZero, Bool.and_eq_true, decide_eq_true_iff, decide_eq_true_iff, int_eq, number_le,
    number_le, Int.cast_zero, le_antisymm_iff]

@[simp]
theorem sin_eq (x : ℝ) : Geometry.sin (number x : Exact gauge) = number (gauge.sin x) := rfl

@[simp]
theorem cos_eq (x : ℝ) : Geometry.cos (number x : Exact gauge) = number (gauge.cos x) := rfl

@[simp]
theorem pi_eq : (Geometry.pi : Exact gauge) = number gauge.pi := rfl

theorem sqrt_eq (hx : 0 ≤ x) : Geometry.sqrt (number x : Exact gauge) = number (gauge.sqrt x) :=
  if_neg (not_lt.mpr hx)

@[simp]
theorem round_eq (places : ℕ) (x : ℝ) :
    (Arith.round places (number x) : Exact gauge) = number (roundTo places x) := rfl

def Defined (c : Exact gauge) : Prop := ∃ x, c = number x

section Defined

variable {a b : Exact gauge}

theorem defined_number (x : ℝ) : (number x : Exact gauge).Defined := ⟨x, rfl⟩

theorem defined_ratio (m n : ℤ) (hn : n ≠ 0) : (Arith.ratio m n : Exact gauge).Defined :=
  ⟨_, ratio_eq m hn⟩

theorem Defined.add (ha : a.Defined) (hb : b.Defined) : (a + b).Defined := by
  obtain ⟨x, rfl⟩ := ha
  obtain ⟨y, rfl⟩ := hb
  exact ⟨x + y, rfl⟩

theorem Defined.sub (ha : a.Defined) (hb : b.Defined) : (a - b).Defined := by
  obtain ⟨x, rfl⟩ := ha
  obtain ⟨y, rfl⟩ := hb
  exact ⟨x - y, rfl⟩

theorem Defined.mul (ha : a.Defined) (hb : b.Defined) : (a * b).Defined := by
  obtain ⟨x, rfl⟩ := ha
  obtain ⟨y, rfl⟩ := hb
  exact ⟨x * y, rfl⟩

theorem Defined.min (ha : a.Defined) (hb : b.Defined) : (Arith.min a b).Defined := by
  obtain ⟨x, rfl⟩ := ha
  obtain ⟨y, rfl⟩ := hb
  exact ⟨Min.min x y, rfl⟩

theorem Defined.div (ha : a.Defined) (hy : y ≠ 0) : (a / number y).Defined := by
  obtain ⟨x, rfl⟩ := ha
  exact ⟨x / y, number_div x hy⟩

end Defined

end Exact

end CodeAtlas
