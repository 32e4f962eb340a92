import CodeAtlas.Proofs.Number.RealOrder
import CodeAtlas.Proofs.Number.WholeSum

/-!
# Quotients up to one

A natural number over a larger one has an exponent below that of one, and a carry leads to one
itself.

* **`nearestWhole_div_mem_unit`**, **`nearestWhole_div_self`**: quotients of natural numbers.
-/

namespace CodeAtlas

open Float.Model Float.Model.UnpackedFloat

theorem float_le_iff {x y : Float} :
    x ≤ y ↔ ∃ k ∈ placeOf x.toModel.unpack, ∃ l ∈ placeOf y.toModel.unpack, k ≤ l := by
  rw [← any_isLE_compare]
  exact decide_eq_true_iff

theorem unpack_div (x y : Float) :
    (x / y).toModel.unpack = (Float.Model.pack (UnpackedFloat.div Format.binary64
      x.toModel.unpack y.toModel.unpack)).unpack := rfl

section Digits

variable {m n : Nat} {e f : Int} {hm : 0 < m} {hn : 0 < n}

theorem div_full (hm52 : m.log2 = 52) (hn52 : n.log2 = 52) (hef : -1000 ≤ e - f) :
    UnpackedFloat.div Format.binary64 (.finite .positive m e hm) (.finite .positive n f hn) =
      roundWithAccuracy Format.binary64 .positive (m * 2 ^ 53 / n) (e - f - 53)
        (accuracyOfFraction (m * 2 ^ 53 % n) n) := by
  have htarget : min (e - f) (Format.binary64.targetExponent
      (totalExponent m e - totalExponent n f)) = e - f - 53 := by
    rw [targetExponent_binary64, totalExponent, totalExponent, hm52, hn52]
    omega
  have hshift : (e - f - (e - f - 53)).toNat = 53 := by omega
  rw [UnpackedFloat.div, divCore]
  dsimp only
  rw [htarget, hshift, Nat.shiftLeft_eq]
  rfl

def placeOfOne : ℤ ×ₗ ℤ ×ₗ ℤ := toLex (1, toLex (-52, 2 ^ 52))

theorem place_zero_le (p : ℤ ×ₗ ℤ) : (toLex (0, toLex (0, 0)) : ℤ ×ₗ ℤ ×ₗ ℤ) ≤ toLex (1, p) :=
  Prod.Lex.toLex_le_toLex.mpr (Or.inl Int.zero_lt_one)

theorem place_le_one {r : Nat} {t : Int} (h : t < -52 ∨ t = -52 ∧ r ≤ 2 ^ 52) :
    (toLex (1, toLex (t, (r : ℤ))) : ℤ ×ₗ ℤ ×ₗ ℤ) ≤ placeOfOne := by
  refine Prod.Lex.toLex_le_toLex.mpr (Or.inr ⟨rfl, Prod.Lex.toLex_le_toLex.mpr ?_⟩)
  dsimp only
  omega

/-- A number rounded to 53 digits is packed as it is, or with a carry to one digit more. -/
theorem unpack_carried {r : Nat} {t : Int} (hlow : 2 ^ 52 ≤ r) (hhigh : r ≤ 2 ^ 53)
    (hleast : -1074 ≤ t) (ht : t < 971) :
    ∃ m e, ∃ hm : 0 < m, (Float.Model.pack (carried .positive r t)).unpack =
      .finite .positive m e hm ∧ (m = r ∧ e = t ∨ r = 2 ^ 53 ∧ m = 2 ^ 52 ∧ e = t + 1) := by
  have hzero : r ≠ 0 := by omega
  rw [carried, dif_neg hzero]
  split_ifs with hfits
  · have hpackable : Packable r t := ⟨by omega, hfits, hleast, Or.inl hlow⟩
    rw [hpackable.unpack_pack, if_pos (by omega)]
    exact ⟨r, t, hpackable.1, rfl, Or.inl ⟨rfl, rfl⟩⟩
  · have hpackable : Packable (2 ^ 52) (t + 1) :=
      ⟨Nat.two_pow_pos 52, by decide, by omega, Or.inl (Nat.le_refl _)⟩
    rw [hpackable.unpack_pack, if_pos (by omega)]
    exact ⟨2 ^ 52, t + 1, hpackable.1, rfl, Or.inr ⟨by omega, rfl, rfl⟩⟩

/-- A quotient of numbers of 53 digits has 53 or 54 before it is rounded. -/
theorem div_full_carried (hm : 0 < m) (hn : 0 < n) (hm52 : m.log2 = 52) (hn52 : n.log2 = 52)
    (hef : -1000 ≤ e - f) {q : Nat} (hq : m * 2 ^ 53 / n = q) :
    52 ≤ q.log2 ∧ q.log2 ≤ 53 ∧ 2 ^ 52 ≤ q / 2 ^ (q.log2 - 52) ∧
    ∃ r, q / 2 ^ (q.log2 - 52) ≤ r ∧ r ≤ q / 2 ^ (q.log2 - 52) + 1 ∧ r ≤ 2 ^ 53 ∧
      UnpackedFloat.div Format.binary64 (.finite .positive m e hm) (.finite .positive n f hn) =
        carried .positive r (q.log2 + (e - f) - 105) := by
  obtain ⟨hmlow, hmhigh⟩ := (Nat.log2_eq_iff (Nat.ne_of_gt hm)).mp hm52
  obtain ⟨hnlow, hnhigh⟩ := (Nat.log2_eq_iff (Nat.ne_of_gt hn)).mp hn52
  have hqlow : 2 ^ 52 ≤ q := by
    rw [← hq, Nat.le_div_iff_mul_le hn]
    omega
  have hqhigh : q < 2 ^ 54 := by
    rw [← hq, Nat.div_lt_iff_lt_mul hn]
    omega
  have hpos : q ≠ 0 := by omega
  have hlog : 52 ≤ q.log2 := (Nat.le_log2 hpos).mpr hqlow
  have hlog' : q.log2 < 54 := (Nat.log2_lt hpos).mpr hqhigh
  have hfull : fullExponent q (e - f - 53) = q.log2 + (e - f) - 105 := by
    rw [fullExponent]
    omega
  have hshift : (fullExponent q (e - f - 53) - (e - f - 53)).toNat = q.log2 - 52 := by omega
  have hcut : 2 ^ 52 ≤ q / 2 ^ (q.log2 - 52) := by
    rw [Nat.le_div_iff_mul_le (Nat.two_pow_pos _), ← Nat.pow_add, Nat.add_sub_cancel' hlog]
    exact Nat.log2_self_le hpos
  obtain ⟨r, hrlow, hrhigh, hr53, heq⟩ := roundWithAccuracy_eq .positive (m := q) (e := e - f - 53)
    (by omega) (accuracyOfFraction (m * 2 ^ 53 % n) n)
  rw [hshift] at hrlow hrhigh
  refine ⟨hlog, by omega, hcut, r, hrlow, hrhigh, hr53, ?_⟩
  rw [div_full hm52 hn52 hef, hq, heq, hfull]

/-- **A quotient below one** is rounded to a number that is at most one. -/
theorem place_div_full (hm52 : m.log2 = 52) (hn52 : n.log2 = 52) (hef : -1000 ≤ e - f)
    (hless : e < f ∨ e = f ∧ m < n) :
    ∃ k ∈ placeOf (Float.Model.pack (UnpackedFloat.div Format.binary64
        (.finite .positive m e hm) (.finite .positive n f hn))).unpack,
      toLex (0, toLex (0, 0)) ≤ k ∧ k ≤ placeOfOne := by
  obtain ⟨hlog, hlog', hcut, r, hrlow, -, hr53, heq⟩ :=
    div_full_carried hm hn hm52 hn52 hef rfl
  have hlogless : e = f → (m * 2 ^ 53 / n).log2 < 53 := by
    intro heq
    refine (Nat.log2_lt fun hzero => ?_).mpr ?_
    · rw [hzero] at hlog
      exact absurd hlog (by decide)
    · rw [Nat.div_lt_iff_lt_mul hn]
      omega
  obtain ⟨k, t, hk, hunpack, hcases⟩ :=
    unpack_carried (t := (m * 2 ^ 53 / n).log2 + (e - f) - 105) (hcut.trans hrlow) hr53 (by omega)
      (by omega)
  rw [heq, hunpack]
  exact ⟨_, rfl, place_zero_le _, place_le_one (by omega)⟩

end Digits

/-! ## Quotients of natural numbers -/

section Whole

variable {m n : Nat}

theorem log2_wholeForm (hn : 0 < n) (hlt : n < 2 ^ 53) : (n * 2 ^ (52 - n.log2)).log2 = 52 := by
  have hlog := log2_le_of_lt hn hlt
  rw [log2_mul_two_pow hn]
  omega

theorem unpack_nearestWhole (hn : 0 < n) (hlt : n < exactLimit) :
    (nearestWhole n).toModel.unpack = wholeForm n hn := by
  rw [nearestWhole_natCast (Nat.le_of_lt hlt), toModel_ofNat hn hlt, unpack_pack_whole hn hlt]

theorem nearestWhole_zero_ne_one : nearestWhole 0 ≠ 1 := by
  intro h
  have hunpack : (nearestWhole 0).toModel.unpack = wholeForm 1 Nat.one_pos := by
    rw [h]
    rfl
  cases hunpack

/-- **A natural number over itself** is one. -/
theorem nearestWhole_div_self (hn : 0 < n) (hlt : n < exactLimit) :
    nearestWhole n / nearestWhole n = 1 := by
  have hpos : 0 < n * 2 ^ (52 - n.log2) := Nat.mul_pos hn (Nat.two_pow_pos _)
  have hdigits := log2_wholeForm hn hlt
  have hone : UnpackedFloat.div Format.binary64 (wholeForm n hn) (wholeForm n hn) =
      wholeForm 1 Nat.one_pos := by
    rw [wholeForm, div_full hdigits hdigits (by omega), Nat.mul_div_cancel_left _ hpos,
      Nat.mul_mod_right, Int.sub_self]
    exact roundWithAccuracy_whole (k := 53) Nat.one_pos (by decide) (by decide)
  have hmodel : (nearestWhole n / nearestWhole n).toModel = (Float.ofNat 1).toModel := by
    change Float.Model.pack (UnpackedFloat.div Format.binary64 (nearestWhole n).toModel.unpack
      (nearestWhole n).toModel.unpack) = _
    rw [unpack_nearestWhole hn hlt, hone, toModel_ofNat Nat.one_pos (by decide)]
  exact congrArg Float.ofModel hmodel

theorem place_nearestWhole_div (hmn : m ≤ n) (hn : 0 < n) (hlt : n < exactLimit) :
    ∃ k ∈ placeOf (nearestWhole m / nearestWhole n).toModel.unpack,
      toLex (0, toLex (0, 0)) ≤ k ∧ k ≤ placeOfOne := by
  have hlimit : exactLimit = 2 ^ 53 := rfl
  rcases Nat.eq_zero_or_pos m with rfl | hm
  · have hzero : (nearestWhole (0 : Nat)).toModel.unpack = .zero .positive := rfl
    rw [unpack_div, unpack_nearestWhole hn hlt, hzero, wholeForm, UnpackedFloat.div,
      unpack_pack_zero]
    exact ⟨_, rfl, le_rfl, place_zero_le _⟩
  rcases hmn.eq_or_lt with rfl | hless
  · rw [nearestWhole_div_self hm hlt]
    exact ⟨placeOfOne, rfl, place_zero_le _, le_rfl⟩
  · have hmlt : m < exactLimit := hless.trans hlt
    have hmono := log2_mono hmn
    have hmlog := log2_le_of_lt hm hmlt
    have hnlog := log2_le_of_lt hn hlt
    rw [unpack_div, unpack_nearestWhole hm hmlt, unpack_nearestWhole hn hlt]
    refine place_div_full (log2_wholeForm hm hmlt) (log2_wholeForm hn hlt) (by omega) ?_
    rcases hmono.lt_or_eq with hlog | hlog
    · exact Or.inl (by omega)
    · refine Or.inr ⟨by omega, ?_⟩
      rw [hlog]
      exact Nat.mul_lt_mul_of_pos_right hless (Nat.two_pow_pos _)

/-- **A natural number over one that is not smaller** is between zero and one. -/
theorem nearestWhole_div_mem_unit (hmn : m ≤ n) (hn : 0 < n) (hlt : n < exactLimit) :
    0 ≤ nearestWhole m / nearestWhole n ∧ nearestWhole m / nearestWhole n ≤ 1 := by
  obtain ⟨k, hk, hlow, hhigh⟩ := place_nearestWhole_div hmn hn hlt
  exact ⟨float_le_iff.mpr ⟨_, rfl, k, hk, hlow⟩, float_le_iff.mpr ⟨k, hk, placeOfOne, rfl, hhigh⟩⟩

end Whole

end CodeAtlas
