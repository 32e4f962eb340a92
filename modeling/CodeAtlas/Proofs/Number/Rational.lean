import CodeAtlas.Number.Binary
import Mathlib.Algebra.BigOperators.Group.List.Basic
import Mathlib.Algebra.Order.Field.Rat
import Mathlib.Data.Rat.Floor
import Mathlib.Tactic.FieldSimp
import Mathlib.Tactic.Linarith

/-!
# Exact arithmetic

* **`le_roundDiv_iff`**: the numbers that a rounded quotient reaches.
* `Rational.instArith`: the rationals as scalars.
* `Rational.roundPlaces_mono`, `Rational.abs_roundPlaces_sub_le`: rounding to decimal places keeps
  the order and is off by half a unit at most.
-/

namespace CodeAtlas

/-! ## The rounded quotient -/

variable (num den : ℕ)

theorem roundDiv_cases :
    roundDiv num den = num / den ∨ roundDiv num den = num / den + 1 := by
  unfold roundDiv
  dsimp only
  split_ifs <;> simp

theorem div_le_roundDiv : num / den ≤ roundDiv num den := by
  have := roundDiv_cases num den
  omega

theorem roundDiv_le : roundDiv num den ≤ num / den + 1 := by
  have := roundDiv_cases num den
  omega

section Nearest

variable {num den num' den' m : ℕ}

/-- An even number is reached from half way below it on, and an odd one from beyond that. -/
theorem le_roundDiv_iff (hden : 0 < den) :
    m ≤ roundDiv num den ↔ 2 * (m * den) + m % 2 ≤ 2 * num + den := by
  have hsplit := Nat.div_add_mod' num den
  have hlt := Nat.mod_lt num hden
  have hlow := div_le_roundDiv num den
  have hhigh := roundDiv_le num den
  rcases lt_trichotomy m (num / den + 1) with hm | hm | hm
  · have hmul := Nat.mul_le_mul_right den (Nat.le_of_lt_succ hm)
    exact iff_of_true (by omega) (by omega)
  · have hround : num / den + 1 ≤ roundDiv num den ↔
        den + (num / den + 1) % 2 ≤ 2 * (num % den) := by
      unfold roundDiv
      dsimp only
      split_ifs <;> omega
    rw [hm, hround, Nat.add_mul, Nat.one_mul]
    omega
  · have hmul := Nat.mul_le_mul_right den (Nat.succ_le_of_lt hm)
    rw [Nat.succ_eq_add_one, Nat.add_mul, Nat.add_mul, Nat.one_mul] at hmul
    exact iff_of_false (by omega) (by omega)

theorem roundDiv_lt_iff (hden : 0 < den) :
    roundDiv num den < m ↔ 2 * num + den < 2 * (m * den) + m % 2 := by
  rw [← not_le, le_roundDiv_iff hden, not_le]

theorem roundDiv_mono (hden : 0 < den) (hden' : 0 < den') (h : num * den' ≤ num' * den) :
    roundDiv num den ≤ roundDiv num' den' := by
  have hreached := (le_roundDiv_iff hden).mp (le_refl (roundDiv num den))
  refine (le_roundDiv_iff hden').mpr ?_
  generalize roundDiv num den = r at hreached ⊢
  have hscaled : 2 * (r * den') * den + r % 2 * den' ≤ (2 * num' + den') * den := by nlinarith
  rcases Nat.mod_two_eq_zero_or_one r with heven | hodd
  · rw [heven, Nat.zero_mul, Nat.add_zero] at hscaled
    rw [heven]
    exact Nat.le_of_mul_le_mul_right hscaled hden
  · rw [hodd] at hscaled ⊢
    exact Nat.lt_of_mul_lt_mul_right (a := den) (by omega)

theorem abs_roundDiv_sub_le (num : ℕ) (hden : 0 < den) :
    |(roundDiv num den : ℚ) - num / den| ≤ 1 / 2 := by
  have hreached := (le_roundDiv_iff hden).mp (le_refl (roundDiv num den))
  have hnot := (roundDiv_lt_iff hden).mp (Nat.lt_add_one (roundDiv num den))
  generalize roundDiv num den = r at hreached hnot ⊢
  have hlow : (2 * (r * den) : ℚ) ≤ 2 * num + den := by
    have : 2 * (r * den) ≤ 2 * num + den := by omega
    exact_mod_cast this
  have hhigh : (2 * num + den : ℚ) ≤ 2 * ((r + 1) * den) := by
    have : 2 * num + den ≤ 2 * ((r + 1) * den) := by omega
    exact_mod_cast this
  have hpos : (0 : ℚ) < den := by exact_mod_cast hden
  have hquotient : (num / den : ℚ) * den = num := div_mul_cancel₀ _ hpos.ne'
  rw [abs_le]
  constructor <;> nlinarith

/-- A quotient is rounded to the natural at most one half away, an odd one closer. -/
theorem roundDiv_eq (hden : 0 < den) (hlow : (m : ℚ) - 1 / 2 ≤ num / den)
    (hhigh : (num / den : ℚ) ≤ m + 1 / 2)
    (hodd : m % 2 = 1 → (m : ℚ) - 1 / 2 < num / den ∧ (num / den : ℚ) < m + 1 / 2) :
    roundDiv num den = m := by
  have hpos : (0 : ℚ) < den := by exact_mod_cast hden
  rw [le_div_iff₀ hpos] at hlow
  rw [div_le_iff₀ hpos] at hhigh
  rw [lt_div_iff₀ hpos, div_lt_iff₀ hpos] at hodd
  have hlow' : 2 * (m * den) ≤ 2 * num + den := by
    have : (2 * (m * den) : ℚ) ≤ 2 * num + den := by linarith
    exact_mod_cast this
  have hhigh' : 2 * num ≤ 2 * (m * den) + den := by
    have : (2 * num : ℚ) ≤ 2 * (m * den) + den := by linarith
    exact_mod_cast this
  have hodd' : m % 2 = 1 → 2 * (m * den) < 2 * num + den ∧ 2 * num < 2 * (m * den) + den := by
    intro h
    obtain ⟨h₁, h₂⟩ := hodd h
    have h₁ : (2 * (m * den) : ℚ) < 2 * num + den := by linarith
    have h₂ : (2 * num : ℚ) < 2 * (m * den) + den := by linarith
    exact ⟨by exact_mod_cast h₁, by exact_mod_cast h₂⟩
  refine le_antisymm (Nat.le_of_lt_succ ((roundDiv_lt_iff hden).mpr ?_))
    ((le_roundDiv_iff hden).mpr (by omega))
  rw [Nat.succ_eq_add_one, Nat.add_mul, Nat.one_mul]
  omega

end Nearest

/-! ## The rationals as scalars -/

namespace Rational

/-- The nearest rational with that many decimal places, a half going to the even one. -/
def roundPlaces (places : ℕ) (x : ℚ) : ℚ :=
  signedInt (decide (x < 0)) (roundDiv (x.num.natAbs * Nat.pow 10 places) x.den) / Nat.pow 10 places

instance instArith : Arith ℚ where
  int n := n
  decLt := inferInstance
  decLe := inferInstance
  floor x := ⌊x⌋
  round := roundPlaces

variable {x y : ℚ}

variable (places : ℕ)

theorem roundPlaces_of_nonneg (hx : 0 ≤ x) :
    roundPlaces places x =
      roundDiv (x.num.natAbs * Nat.pow 10 places) x.den / Nat.pow 10 places := by
  rw [roundPlaces, decide_eq_false (not_lt.mpr hx)]
  rfl

theorem natAbs_div_den (hx : 0 ≤ x) : (x.num.natAbs : ℚ) / x.den = x := by
  rw [Nat.cast_natAbs, abs_of_nonneg (Rat.num_nonneg.mpr hx), Rat.num_div_den]

theorem pow_ten_pos : (0 : ℚ) < Nat.pow 10 places := by
  exact_mod_cast Nat.pow_pos (n := places) (show 0 < 10 by decide)

theorem roundPlaces_mono (hx : 0 ≤ x) (h : x ≤ y) :
    roundPlaces places x ≤ roundPlaces places y := by
  rw [roundPlaces_of_nonneg places hx, roundPlaces_of_nonneg places (hx.trans h)]
  have hcross : x.num.natAbs * y.den ≤ y.num.natAbs * x.den := by
    have hxden : (0 : ℚ) < x.den := by exact_mod_cast x.pos
    have hyden : (0 : ℚ) < y.den := by exact_mod_cast y.pos
    have hle := h
    rw [← natAbs_div_den hx, ← natAbs_div_den (hx.trans h), div_le_div_iff₀ hxden hyden] at hle
    exact_mod_cast hle
  have hround : roundDiv (x.num.natAbs * Nat.pow 10 places) x.den ≤
      roundDiv (y.num.natAbs * Nat.pow 10 places) y.den :=
    roundDiv_mono x.pos y.pos (by nlinarith)
  have hpos := pow_ten_pos places
  have hcast : (roundDiv (x.num.natAbs * Nat.pow 10 places) x.den : ℚ) ≤
      roundDiv (y.num.natAbs * Nat.pow 10 places) y.den := by exact_mod_cast hround
  gcongr

theorem abs_roundPlaces_sub_le (hx : 0 ≤ x) :
    |roundPlaces places x - x| ≤ 1 / 2 / Nat.pow 10 places := by
  have hpos := pow_ten_pos places
  have hnear := abs_roundDiv_sub_le (x.num.natAbs * Nat.pow 10 places) x.pos
  have hscaled : ((x.num.natAbs * Nat.pow 10 places : ℕ) : ℚ) / x.den = x * Nat.pow 10 places := by
    rw [Nat.cast_mul, mul_div_right_comm, natAbs_div_den hx]
  rw [hscaled] at hnear
  rw [roundPlaces_of_nonneg places hx, le_div_iff₀ hpos, ← abs_of_pos hpos, ← abs_mul,
    abs_of_pos hpos, sub_mul, div_mul_cancel₀ _ hpos.ne']
  exact hnear

theorem roundPlaces_natCast (places n : ℕ) : roundPlaces places n = n := by
  have hone : ∀ m : ℕ, roundDiv m 1 = m := by simp [roundDiv, Nat.mod_one]
  have hpos := pow_ten_pos places
  rw [roundPlaces_of_nonneg places (Nat.cast_nonneg n), Rat.num_natCast, Rat.den_natCast,
    Int.natAbs_natCast, hone, Nat.cast_mul, mul_div_cancel_right₀ _ hpos.ne']

end Rational

namespace Arith

@[simp]
theorem int_rat (n : ℤ) : (int n : ℚ) = n := rfl

@[simp]
theorem nat_rat (n : ℕ) : (nat n : ℚ) = n := Int.cast_natCast n

@[simp]
theorem sum_rat (xs : List ℚ) : sum xs = xs.sum := by
  rw [List.sum_eq_foldl, sum, int_rat, Int.cast_zero]

theorem max_rat (a b : ℚ) : Arith.max a b = Max.max a b := by
  rw [max_def_lt]
  rfl

theorem maxWithZero_rat (xs : List ℚ) : maxWithZero xs = xs.foldl Max.max 0 := by
  have hmax : (Arith.max : ℚ → ℚ → ℚ) = Max.max := funext fun a => funext (max_rat a)
  rw [maxWithZero, hmax, int_rat, Int.cast_zero]

end Arith

end CodeAtlas
