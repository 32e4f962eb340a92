import CodeAtlas.Proofs.Number.Computing

/-!
# Whole numbers beyond all real ones

The largest real number is `2 ^ 1024 - 2 ^ 971`. A whole number is rounded to a real one up to half
way from there to `2 ^ 1024`.

* **`nearestWhole_isInf_iff`**: the whole numbers that become infinite.
-/

namespace CodeAtlas

/-- The least whole number beyond all real ones. -/
def beyondReal : Nat := 2 ^ 1024 - 2 ^ 970

variable {n : Nat}

theorem beyondReal_le_iff : beyondReal ≤ n ↔ 2 ^ (970 + 54) ≤ n + 2 ^ 970 := by
  rw [beyondReal, Nat.sub_le_iff_le_add]

theorem two_pow_le_of_le_log2 {n k : Nat} (hn : n ≠ 0) (h : k ≤ n.log2) : 2 ^ k ≤ n :=
  (Nat.le_log2 hn).mp h

theorem leadingBit_one (hn : n ≠ 0) : leadingBit n 1 = n.log2 := by
  have hle : 1 * Nat.pow 2 n.log2 ≤ n * Nat.pow 2 0 := by
    rw [Nat.one_mul]
    exact (Nat.log2_self_le hn).trans_eq (Nat.mul_one n).symm
  have hguess : (n.log2 : Int) - (Nat.log2 1 : Nat) = n.log2 := by
    rw [show Nat.log2 1 = 0 from rfl]
    omega
  unfold leadingBit
  dsimp only
  rw [hguess, if_pos]
  simpa using hle

theorem nearestBits_whole (hn : 52 ≤ n.log2) :
    nearestBits n 1 =
      min ((n.log2 + 1022) * 2 ^ 52 + roundDiv n (2 ^ (n.log2 - 52))) infiniteBits := by
  have hne : n ≠ 0 := by
    rintro rfl
    exact absurd hn (by decide)
  have hunit : max (leadingBit n 1 - 52) (-1074) = (n.log2 - 52 : Nat) := by
    rw [leadingBit_one hne]
    omega
  have hshift : (-((n.log2 - 52 : Nat) : Int)).toNat = 0 := by omega
  have hplace : (((n.log2 - 52 : Nat) : Int) + 1074).toNat = n.log2 + 1022 := by omega
  unfold nearestBits
  dsimp only
  rw [hunit, hshift, hplace, Int.toNat_natCast, show Nat.pow 2 0 = 1 from rfl,
    Nat.mul_one, Nat.one_mul]
  rfl

theorem roundDiv_bounds (hn : 52 ≤ n.log2) :
    2 ^ 52 ≤ roundDiv n (2 ^ (n.log2 - 52)) ∧ roundDiv n (2 ^ (n.log2 - 52)) ≤ 2 ^ 53 := by
  have hne : n ≠ 0 := by
    rintro rfl
    exact absurd hn (by decide)
  have hlow : 2 ^ 52 ≤ n / 2 ^ (n.log2 - 52) := by
    rw [Nat.le_div_iff_mul_le (Nat.two_pow_pos _), ← Nat.pow_add, Nat.add_sub_cancel' hn]
    exact Nat.log2_self_le hne
  have hhigh : n / 2 ^ (n.log2 - 52) < 2 ^ 53 := by
    refine Nat.div_lt_of_lt_mul ?_
    rw [← Nat.pow_add, show n.log2 - 52 + 53 = n.log2 + 1 by omega]
    exact Nat.lt_log2_self
  have := div_le_roundDiv n (2 ^ (n.log2 - 52))
  have := roundDiv_le n (2 ^ (n.log2 - 52))
  omega

theorem two_pow_le_roundDiv_iff (n k : Nat) :
    2 ^ 53 ≤ roundDiv n (2 ^ (k + 1)) ↔ 2 ^ (k + 54) ≤ n + 2 ^ k := by
  have hpow : 2 ^ 53 * 2 ^ (k + 1) = 2 ^ (k + 54) := by
    rw [← Nat.pow_add]
    congr 1
    omega
  have heven : 2 ^ 53 % 2 = 0 := by decide
  rw [le_roundDiv_iff (Nat.two_pow_pos _), hpow, heven, Nat.pow_succ]
  omega

/-- A large whole number becomes infinite from `beyondReal` on. -/
theorem infiniteBits_le_iff (hn : 52 ≤ n.log2) :
    infiniteBits ≤ (n.log2 + 1022) * 2 ^ 52 + roundDiv n (2 ^ (n.log2 - 52)) ↔ beyondReal ≤ n := by
  have hlimit : infiniteBits = 2047 * 2 ^ 52 := rfl
  have hne : n ≠ 0 := by
    rintro rfl
    exact absurd hn (by decide)
  obtain ⟨hlow, hhigh⟩ := roundDiv_bounds hn
  rcases lt_trichotomy n.log2 1023 with hk | hk | hk
  · refine iff_of_false (by omega) (Nat.not_le.mpr ?_)
    calc n < 2 ^ 1023 := (Nat.log2_lt hne).mp hk
      _ ≤ beyondReal := by decide +kernel
  · have hreach := two_pow_le_roundDiv_iff n 970
    rw [hk, show 1023 - 52 = 970 + 1 from rfl] at hlow hhigh ⊢
    rw [hlimit, beyondReal_le_iff, ← hreach]
    omega
  · refine iff_of_true (by omega) ?_
    exact beyondReal_le_iff.mpr (Nat.le_add_right_of_le (two_pow_le_of_le_log2 hne hk))

/-- **A whole number becomes infinite** when it is beyond all real ones. -/
theorem nearestWhole_isInf_iff (n : Int) :
    (nearestWhole n).isInf = true ↔ beyondReal ≤ n.natAbs := by
  by_cases hsmall : n.natAbs ≤ exactLimit
  · have hlt : n.natAbs < 2 ^ 200 := hsmall.trans_lt (by decide)
    rw [nearestWhole_not_isInf hlt]
    refine iff_of_false Bool.false_ne_true (Nat.not_le.mpr (hlt.trans ?_))
    decide +kernel
  · have hpos : n.natAbs ≠ 0 := fun h => hsmall (h ▸ Nat.zero_le _)
    have hlog : 52 ≤ n.natAbs.log2 := by
      refine (Nat.le_log2 hpos).mpr (Nat.le_of_lt (lt_of_le_of_lt ?_ (Nat.lt_of_not_le hsmall)))
      decide
    have hquotient : (nearestQuotient n.natAbs 1).isInf = true ↔ beyondReal ≤ n.natAbs := by
      rw [nearestQuotient, if_neg hpos, nearestBits_whole hlog, ← infiniteBits_le_iff hlog]
      generalize (n.natAbs.log2 + 1022) * 2 ^ 52 + roundDiv n.natAbs _ = bits
      constructor
      · intro h
        by_contra hlt
        rw [Nat.min_eq_left (by omega), isInf_ofBits (by omega)] at h
        cases h
      · intro h
        rw [Nat.min_eq_right h]
        decide +kernel
    rw [← hquotient, nearestWhole, if_neg hsmall, signed]
    split_ifs
    · rw [isInf_neg]
    · rfl

end CodeAtlas
