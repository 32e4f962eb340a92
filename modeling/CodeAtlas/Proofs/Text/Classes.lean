import CodeAtlas.Text.CharClass
import Mathlib.Data.List.Basic

/-!
# Classes of characters

Halving finds how many bounds are at or below a number, and so the range in which it lies.

* **`inRanges_iff`**: a character belongs to the class just if it lies in one of the ranges.
* **`isWord_of_isBlank`**: a blank is no word character.
-/

namespace CodeAtlas.Text

/-! ## The search by halving -/

section Halving

variable {l : List Nat} {n : Nat}

theorem countP_eq_zero_of_lt {a : Nat} (hsorted : ∀ b ∈ l, a ≤ b) (h : n < a) :
    l.countP (· ≤ n) = 0 := by
  refine List.countP_eq_zero.mpr fun b hb hle => ?_
  have hab := hsorted b hb
  rw [decide_eq_true_iff] at hle
  omega

theorem getElem_le_iff (hsorted : l.Pairwise (· ≤ ·)) {i : Nat} (hi : i < l.length) :
    l[i] ≤ n ↔ i < l.countP (· ≤ n) := by
  induction l generalizing i with
  | nil => exact absurd hi (Nat.not_lt_zero i)
  | cons a l ih =>
    obtain ⟨hfirst, hrest⟩ := List.pairwise_cons.mp hsorted
    rw [List.countP_cons]
    by_cases ha : a ≤ n
    · rw [decide_eq_true ha, if_pos rfl]
      cases i with
      | zero => exact iff_of_true ha (Nat.succ_pos _)
      | succ i =>
        rw [List.getElem_cons_succ, ih hrest (Nat.lt_of_succ_lt_succ hi)]
        omega
    · have hnone := countP_eq_zero_of_lt hfirst (Nat.lt_of_not_le ha)
      rw [hnone, decide_eq_false ha, if_neg Bool.false_ne_true]
      refine iff_of_false (fun hle => ha ?_) (Nat.not_lt_zero i)
      cases i with
      | zero => exact hle
      | succ i => exact Nat.le_trans (hfirst _ (List.getElem_mem _)) hle

theorem boundsAtOrBelow_spec {bounds : Array Nat} {k : Nat}
    (hk : ∀ i, i < bounds.size → (bounds.getD i 0 ≤ n ↔ i < k)) (fuel : Nat) {low high : Nat}
    (hlow : low ≤ k) (hhigh : k ≤ high) (hsize : high ≤ bounds.size) (hfuel : high - low ≤ fuel) :
    boundsAtOrBelow bounds n fuel low high = k := by
  induction fuel generalizing low high with
  | zero =>
    rw [boundsAtOrBelow]
    omega
  | succ fuel ih =>
    rw [boundsAtOrBelow]
    by_cases hdone : high ≤ low
    · rw [if_pos hdone]
      omega
    · rw [if_neg hdone]
      dsimp only
      have hmiddle := hk ((low + high) / 2) (by omega)
      by_cases hle : bounds.getD ((low + high) / 2) 0 ≤ n
      · have := hmiddle.mp hle
        rw [if_pos hle]
        exact ih (by omega) hhigh hsize (by omega)
      · have := mt hmiddle.mpr hle
        rw [if_neg hle]
        exact ih hlow (by omega) (by omega) (by omega)

theorem boundsAtOrBelow_eq {bounds : Array Nat} (hsorted : bounds.toList.Pairwise (· ≤ ·)) :
    boundsAtOrBelow bounds n bounds.size 0 bounds.size = bounds.toList.countP (· ≤ n) := by
  refine boundsAtOrBelow_spec (fun i hi => ?_) _ (Nat.zero_le _) ?_ (Nat.le_refl _) (by omega)
  · rw [← getElem_le_iff hsorted hi, Array.getD, dif_pos hi]
    rfl
  · exact List.countP_le_length

end Halving

/-! ## Ranges -/

/-- The ranges between the bounds: each from one bound to before the next. -/
def rangesOf : List Nat → List (Nat × Nat)
  | low :: high :: rest => (low, high) :: rangesOf rest
  | _ => []

/-- An odd number of bounds lies at or below the numbers in closed ranges. -/
theorem odd_countP_iff {l : List Nat} (hsorted : l.Pairwise (· ≤ ·)) (heven : l.length % 2 = 0)
    {n : Nat} : l.countP (· ≤ n) % 2 = 1 ↔ ∃ r ∈ rangesOf l, r.1 ≤ n ∧ n < r.2 := by
  induction l using rangesOf.induct with
  | case1 low high rest ih =>
    obtain ⟨hlow, htail⟩ := List.pairwise_cons.mp hsorted
    obtain ⟨hhigh, hrest⟩ := List.pairwise_cons.mp htail
    have hle : low ≤ high := hlow high List.mem_cons_self
    have hlength : rest.length % 2 = 0 := by
      rw [List.length_cons, List.length_cons] at heven
      omega
    rw [rangesOf, List.exists_mem_cons_iff, ← ih hrest hlength, List.countP_cons, List.countP_cons]
    dsimp only
    by_cases hn : high ≤ n
    · have hlown : low ≤ n := Nat.le_trans hle hn
      rw [decide_eq_true hn, decide_eq_true hlown, if_pos rfl]
      omega
    · -- all further bounds are above the number
      have hnone := countP_eq_zero_of_lt hhigh (Nat.lt_of_not_le hn)
      rw [hnone, decide_eq_false hn, if_neg Bool.false_ne_true]
      by_cases hlown : low ≤ n
      · rw [decide_eq_true hlown, if_pos rfl]
        omega
      · rw [decide_eq_false hlown, if_neg Bool.false_ne_true]
        omega
  | case2 l h =>
    cases l with
    | nil => simp [rangesOf]
    | cons a l =>
      cases l with
      | nil => cases heven
      | cons b rest => exact absurd rfl (h a b rest)

/-- **Membership of a class**: the character lies in one of its ranges. -/
theorem inRanges_iff {bounds : Array Nat} (hsorted : bounds.toList.Pairwise (· ≤ ·))
    (heven : bounds.size % 2 = 0) {c : Char} :
    inRanges bounds c = true ↔ ∃ r ∈ rangesOf bounds.toList, r.1 ≤ c.toNat ∧ c.toNat < r.2 := by
  rw [inRanges, boundsAtOrBelow_eq hsorted, beq_iff_eq]
  exact odd_countP_iff hsorted heven

/-! ## Blanks and words -/

theorem isWord_blankRanges : ∀ r ∈ rangesOf blankBounds.toList, ∀ k < r.2 - r.1,
    isWord (Char.ofNat (r.1 + k)) = false := by
  decide +kernel

/-- **A blank is no word character.** -/
theorem isWord_of_isBlank {c : Char} (h : isBlank c = true) : isWord c = false := by
  obtain ⟨r, hr, hlow, hhigh⟩ := (inRanges_iff (by decide) (by decide)).mp h
  have hword := isWord_blankRanges r hr (c.toNat - r.1) (by omega)
  rwa [Nat.add_sub_cancel' hlow, Char.ofNat_toNat] at hword

end CodeAtlas.Text
