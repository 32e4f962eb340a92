import CodeAtlas.Proofs.Number.Nearest
import CodeAtlas.Proofs.Number.Quotient

/-!
# How close a quotient is

A quotient is cut to 53 binary digits and one is added to the last at most, so it is off by no more
than one part in `2 ^ 52`.

* **`exists_close_div`**: the quotient of two natural numbers.
-/

namespace CodeAtlas

open Float.Model Float.Model.UnpackedFloat

def Binary.size (b : Binary) : ℚ := b.mantissa * 2 ^ b.exponent

theorem abs_sub_div_le {num den r : ℕ} (hlow : num / den ≤ r) (hhigh : r ≤ num / den + 1) :
    |(r : ℚ) - num / den| ≤ 1 := by
  have hfloor := Nat.floor_div_eq_div (K := ℚ) num den
  have hle := Nat.floor_le (show (0 : ℚ) ≤ num / den by positivity)
  have hlt := Nat.lt_floor_add_one ((num : ℚ) / den)
  rw [hfloor] at hle hlt
  have hlow' : ((num / den : ℕ) : ℚ) ≤ r := by exact_mod_cast hlow
  have hhigh' : (r : ℚ) ≤ (num / den : ℕ) + 1 := by exact_mod_cast hhigh
  rw [abs_le]
  constructor <;> linarith

theorem close_div_full {m n : Nat} {e f : Int} (hm : 0 < m) (hn : 0 < n) (hm52 : m.log2 = 52)
    (hn52 : n.log2 = 52) (hef : -1000 ≤ e - f) (hef' : e - f ≤ 900) :
    ∃ k t, ∃ hk : 0 < k, (Float.Model.pack (UnpackedFloat.div Format.binary64
        (.finite .positive m e hm) (.finite .positive n f hn))).unpack =
          .finite .positive k t hk ∧
      |(k : ℚ) * 2 ^ t - m * 2 ^ e / (n * 2 ^ f)| ≤ m * 2 ^ e / (n * 2 ^ f) / 2 ^ 52 := by
  obtain ⟨hlog, hlog', hcut, r, hrlow, hrhigh, hr53, heq⟩ :=
    div_full_carried hm hn hm52 hn52 hef rfl
  generalize hshift : (m * 2 ^ 53 / n).log2 - 52 = shift at hcut hrlow hrhigh
  have hexponent : ((m * 2 ^ 53 / n).log2 : ℤ) + (e - f) - 105 = e - f - 53 + shift := by omega
  rw [hexponent] at heq
  obtain ⟨k, t, hk, hunpack, hcases⟩ :=
    unpack_carried (t := e - f - 53 + shift) (hcut.trans hrlow) hr53 (by omega) (by omega)
  have hsize : (k : ℚ) * 2 ^ t = r * 2 ^ (e - f - 53 + shift) := by
    rcases hcases with ⟨rfl, rfl⟩ | ⟨rfl, rfl, rfl⟩
    · rfl
    · rw [zpow_add_one₀ two_ne_zero]
      push_cast
      ring
  refine ⟨k, t, hk, by rw [heq, hunpack], ?_⟩
  rw [Nat.div_div_eq_div_mul] at hcut hrlow hrhigh
  -- the quotient, counted in units of the last digit
  have hexact : (m : ℚ) * 2 ^ e / (n * 2 ^ f) =
      ((m * 2 ^ 53 : ℕ) : ℚ) / ((n * 2 ^ shift : ℕ) : ℚ) * 2 ^ (e - f - 53 + shift) := by
    have hn' : (n : ℚ) ≠ 0 := Nat.cast_ne_zero.mpr hn.ne'
    rw [zpow_add₀ two_ne_zero, zpow_natCast, zpow_sub₀ two_ne_zero, zpow_sub₀ two_ne_zero]
    push_cast
    field_simp
  have hunit : (0 : ℚ) < 2 ^ (e - f - 53 + shift) := by positivity
  have hoff := abs_sub_div_le hrlow hrhigh
  have hlarge : (2 : ℚ) ^ 52 ≤ ((m * 2 ^ 53 : ℕ) : ℚ) / ((n * 2 ^ shift : ℕ) : ℚ) :=
    le_trans (by exact_mod_cast hcut) Nat.cast_div_le
  rw [hsize, hexact]
  generalize ((m * 2 ^ 53 : ℕ) : ℚ) / ((n * 2 ^ shift : ℕ) : ℚ) = units at *
  calc |(r : ℚ) * 2 ^ (e - f - 53 + shift) - units * 2 ^ (e - f - 53 + shift)|
      = |(r : ℚ) - units| * 2 ^ (e - f - 53 + shift) := by
        rw [← sub_mul, abs_mul, abs_of_pos hunit]
    _ ≤ 1 * 2 ^ (e - f - 53 + shift) := by gcongr
    _ ≤ units / 2 ^ 52 * 2 ^ (e - f - 53 + shift) := by
        gcongr
        rwa [one_le_div (by positivity)]
    _ = units * 2 ^ (e - f - 53 + shift) / 2 ^ 52 := by ring

/-! ## Quotients of natural numbers -/

section Whole

variable {x : Float} {s : Sign} {m n : Nat} {e : Int}

theorem Binary.ofFloat?_of_zero (hx : x.toModel.unpack = .zero s) :
    Binary.ofFloat? x = some ⟨s == .negative, 0, -1074, false⟩ := by
  obtain ⟨_, _, _, _, hx', -⟩ | ⟨s', hx', hbinary⟩ | ⟨hx', -⟩ := Binary.ofFloat?_cases x
  · simp [hx] at hx'
  · obtain rfl : s = s' := by simpa [hx] using hx'
    exact hbinary
  · simp [hx] at hx'

theorem Binary.ofFloat?_of_finite {hm : 0 < m} (hx : x.toModel.unpack = .finite s m e hm) :
    ∃ narrow, Binary.ofFloat? x = some ⟨s == .negative, m, e, narrow⟩ := by
  obtain ⟨_, _, _, _, hx', hbinary⟩ | ⟨_, hx', -⟩ | ⟨hx', -⟩ := Binary.ofFloat?_cases x
  · rw [hx] at hx'
    obtain ⟨rfl, rfl, rfl⟩ := UnpackedFloat.finite.inj hx'
    exact ⟨_, hbinary⟩
  · simp [hx] at hx'
  · simp [hx] at hx'

theorem wholeForm_size (hn : 0 < n) (hlt : n < 2 ^ 53) :
    ((n * 2 ^ (52 - n.log2) : ℕ) : ℚ) * 2 ^ ((n.log2 : ℤ) - 52) = n := by
  have hlog := log2_le_of_lt hn hlt
  have hexponent : (n.log2 : ℤ) - 52 = -((52 - n.log2 : ℕ) : ℤ) := by omega
  rw [hexponent, zpow_neg, zpow_natCast]
  push_cast
  field_simp

/-- **The quotient of two natural numbers** is off by no more than one part in `2 ^ 52`. -/
theorem exists_close_div (hm : m < exactLimit) (hn : 0 < n) (hlt : n < exactLimit) :
    ∃ b, Binary.ofFloat? (nearestWhole m / nearestWhole n) = some b ∧ b.negative = false ∧
      |b.size - m / n| ≤ m / n / 2 ^ 52 := by
  rcases Nat.eq_zero_or_pos m with rfl | hpos
  · have hzero : (nearestWhole (0 : ℕ)).toModel.unpack = .zero .positive := rfl
    have hunpack : (nearestWhole (0 : ℕ) / nearestWhole n).toModel.unpack = .zero .positive := by
      rw [unpack_div, unpack_nearestWhole hn hlt, hzero, wholeForm, UnpackedFloat.div,
        unpack_pack_zero]
      rfl
    exact ⟨_, Binary.ofFloat?_of_zero hunpack, rfl, by simp [Binary.size]⟩
  · have hmlog := log2_le_of_lt hpos hm
    have hnlog := log2_le_of_lt hn hlt
    obtain ⟨k, t, hk, hunpack, hclose⟩ := close_div_full
      (e := (m.log2 : Int) - 52) (f := (n.log2 : Int) - 52)
      (Nat.mul_pos hpos (Nat.two_pow_pos (52 - m.log2)))
      (Nat.mul_pos hn (Nat.two_pow_pos (52 - n.log2)))
      (log2_wholeForm hpos hm) (log2_wholeForm hn hlt) (by omega) (by omega)
    rw [wholeForm_size hpos hm, wholeForm_size hn hlt] at hclose
    have hquotient : (nearestWhole m / nearestWhole n).toModel.unpack =
        .finite .positive k t hk := by
      rw [unpack_div, unpack_nearestWhole hpos hm, unpack_nearestWhole hn hlt]
      exact hunpack
    obtain ⟨narrow, hbinary⟩ := Binary.ofFloat?_of_finite hquotient
    exact ⟨_, hbinary, rfl, hclose⟩

end Whole

end CodeAtlas
