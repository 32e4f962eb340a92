import CodeAtlas.Number.Computed
import Mathlib.Algebra.Order.Ring.Int
import Mathlib.Data.Prod.Lex

/-!
# The order of real numbers

Every number but the undefined one has a place by sign, exponent and mantissa, and a number is at
most another just if its place is.

* **`Computed.Placed.total`**, **`Computed.Placed.trans`**: such results are in order.
-/

namespace CodeAtlas

open Float.Model

/-- The place of a number by infinity, sign, exponent and mantissa; none if undefined. -/
def placeOf : UnpackedFloat → Option (ℤ ×ₗ ℤ ×ₗ ℤ)
  | .notANumber => none
  | .infinity .positive => some (toLex (2, toLex (0, 0)))
  | .finite .positive m e _ => some (toLex (1, toLex (e, m)))
  | .zero _ => some (toLex (0, toLex (0, 0)))
  | .finite .negative m e _ => some (toLex (-1, toLex (-e, -m)))
  | .infinity .negative => some (toLex (-2, toLex (0, 0)))

theorem compare_then_isLE {e₁ e₂ : Int} {m₁ m₂ : Nat} :
    ((compare e₁ e₂).then (compare m₁ m₂)).isLE = true ↔ e₁ < e₂ ∨ e₁ = e₂ ∧ m₁ ≤ m₂ := by
  rcases Int.lt_trichotomy e₁ e₂ with h | h | h
  · have hlt : compare e₁ e₂ = .lt := compare_lt_iff_lt.mpr h
    simp [hlt, h]
  · have heq : compare e₁ e₂ = .eq := compare_eq_iff_eq.mpr h
    simp [h, ← compare_le_iff_le, Ordering.isLE_iff_ne_gt]
  · have hgt : compare e₁ e₂ = .gt := compare_gt_iff_gt.mpr h
    simp [hgt]
    omega

theorem compare_then_isGE {e₁ e₂ : Int} {m₁ m₂ : Nat} :
    ((compare e₁ e₂).then (compare m₁ m₂)).isGE = true ↔ e₂ < e₁ ∨ e₁ = e₂ ∧ m₂ ≤ m₁ := by
  have hswap : ((compare e₁ e₂).then (compare m₁ m₂)).swap =
      (compare e₂ e₁).then (compare m₂ m₁) := by
    rw [Ordering.swap_then, Int.compare_swap, Nat.compare_swap]
  rw [← Ordering.isLE_swap, hswap, compare_then_isLE, eq_comm]

theorem any_isLE_eq (o : Option Ordering) :
    (o == some .lt || o == some .eq) = o.any (·.isLE) := by
  cases o with
  | none => rfl
  | some o => cases o <;> rfl

theorem any_isLE_compare (a b : UnpackedFloat) :
    (a.compare b).any (·.isLE) = true ↔ ∃ k ∈ placeOf a, ∃ l ∈ placeOf b, k ≤ l := by
  -- one case for each pair of forms and signs
  rcases a with (_ | _) | _ | (_ | _) | ⟨_ | _, m, e, _⟩ <;>
    rcases b with (_ | _) | _ | (_ | _) | ⟨_ | _, n, f, _⟩
  all_goals dsimp only [UnpackedFloat.compare, placeOf]
  -- finite numbers of one sign are compared by their exponents and then by their mantissas
  all_goals simp [Prod.Lex.toLex_le_toLex, compare_then_isLE, compare_then_isGE]
  -- what is left are infinite numbers, compared by sign
  all_goals rfl

namespace Computed

def place? : Computed → Option (ℤ ×ₗ ℤ ×ₗ ℤ)
  | .real x => placeOf x.toModel.unpack
  | _ => none

theorem real_le_iff {x y : Float} :
    (real x ≤ real y) ↔ ∃ k ∈ (real x).place?, ∃ l ∈ (real y).place?, k ≤ l := by
  have hlt : decide (x < y) = (x.toModel.unpack.compare y.toModel.unpack == some .lt) := by
    rw [Bool.eq_iff_iff, decide_eq_true_iff]
    exact decide_eq_true_iff
  have heq : (x == y) = (x.toModel.unpack.compare y.toModel.unpack == some .eq) := rfl
  change (decide (x < y) || x == y) = true ↔ _
  rw [hlt, heq, any_isLE_eq, any_isLE_compare]
  rfl

def Placed (a : Computed) : Prop := a.place?.isSome = true

namespace Placed

variable {a b c : Computed}

theorem le_iff (ha : a.Placed) (hb : b.Placed) :
    a ≤ b ↔ ∃ k ∈ a.place?, ∃ l ∈ b.place?, k ≤ l := by
  cases a with
  | real x =>
    cases b with
    | real y => exact real_le_iff
    | whole n => cases hb
    | broken fault => cases hb
  | whole n => cases ha
  | broken fault => cases ha

theorem total (ha : a.Placed) (hb : b.Placed) : a ≤ b ∨ b ≤ a := by
  rw [le_iff ha hb, le_iff hb ha]
  obtain ⟨k, hk⟩ := Option.isSome_iff_exists.mp ha
  obtain ⟨l, hl⟩ := Option.isSome_iff_exists.mp hb
  rcases le_total k l with h | h
  · exact Or.inl ⟨k, hk, l, hl, h⟩
  · exact Or.inr ⟨l, hl, k, hk, h⟩

theorem trans (ha : a.Placed) (hb : b.Placed) (hc : c.Placed) (hab : a ≤ b) (hbc : b ≤ c) :
    a ≤ c := by
  obtain ⟨k, hk, l, hl, hkl⟩ := (le_iff ha hb).mp hab
  obtain ⟨l', hl', m, hm, hlm⟩ := (le_iff hb hc).mp hbc
  obtain rfl := Option.mem_unique hl hl'
  exact (le_iff ha hc).mpr ⟨k, hk, m, hm, hkl.trans hlm⟩

end Placed

end Computed

end CodeAtlas
