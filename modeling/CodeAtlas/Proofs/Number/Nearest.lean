import CodeAtlas.Proofs.Number.Rational
import CodeAtlas.Proofs.Number.Rounding

/-!
# The number nearest to a quotient

A finite number `m * 2 ^ e` is nearest to the reals from half a unit below it to half a unit above
it; below a power of two the units are half as large. The ends belong to it if `m` is even.

* **`nearestBits_of_near`**, `nearestQuotient_of_near`: rounding finds the nearest number.
-/

namespace CodeAtlas

open Float.Model Float.Model.UnpackedFloat

/-! ## Quotients and powers -/

section Quotient

variable {b num den : ℕ}

theorem zpow_mul_pow_toNat {x : ℚ} (hx : x ≠ 0) (k : ℤ) : x ^ k * x ^ (-k).toNat = x ^ k.toNat := by
  rw [← zpow_natCast, ← zpow_natCast, ← zpow_add₀ hx]
  congr 1
  omega

theorem scaled_quotient (hb : b ≠ 0) (num den : ℕ) (k : ℤ) :
    ((num * b ^ (-k).toNat : ℕ) : ℚ) / ((den * b ^ k.toNat : ℕ) : ℚ) = num / den / (b : ℚ) ^ k := by
  have hb' : (b : ℚ) ≠ 0 := Nat.cast_ne_zero.mpr hb
  push_cast
  rw [← zpow_mul_pow_toNat hb' k]
  field_simp

theorem log_eq {k : ℤ} {v : ℚ} (hb : 1 < b) (hlow : (b : ℚ) ^ k ≤ v)
    (hhigh : v < (b : ℚ) ^ (k + 1)) : Int.log b v = k := by
  have hv : 0 < v := lt_of_lt_of_le (by positivity) hlow
  have hle := (Int.zpow_le_iff_le_log hb hv).mp hlow
  have hlt := (Int.lt_zpow_iff_log_lt hb hv).mp hhigh
  omega

/-- The leading place of a quotient is the difference of those of its parts, or one less. -/
theorem leading_eq_log {i j : ℕ} (hb : 1 < b) (hnum : b ^ i ≤ num) (hnum' : num < b ^ (i + 1))
    (hden : b ^ j ≤ den) (hden' : den < b ^ (j + 1)) {guess : ℤ} (hguess : guess = i - j) :
    (if den * b ^ guess.toNat ≤ num * b ^ (-guess).toNat then guess else guess - 1) =
      Int.log b (num / den : ℚ) := by
  have hb' : (0 : ℚ) < b := by positivity
  have hpos : (0 : ℚ) < den := by exact_mod_cast (show 0 < b ^ j by positivity).trans_le hden
  have hlow : (b : ℚ) ^ (guess - 1) ≤ num / den := by
    rw [le_div_iff₀ hpos]
    calc (b : ℚ) ^ (guess - 1) * den
        ≤ (b : ℚ) ^ (guess - 1) * (b : ℚ) ^ (j + 1) := by gcongr; exact_mod_cast hden'.le
      _ = (b : ℚ) ^ i := by
          rw [← zpow_natCast, ← zpow_natCast, ← zpow_add₀ hb'.ne']
          congr 1
          omega
      _ ≤ num := by exact_mod_cast hnum
  have hhigh : (num / den : ℚ) < (b : ℚ) ^ (guess + 1) := by
    rw [div_lt_iff₀ hpos]
    calc (num : ℚ) < (b : ℚ) ^ (i + 1) := by exact_mod_cast hnum'
      _ = (b : ℚ) ^ (guess + 1) * (b : ℚ) ^ j := by
          rw [← zpow_natCast, ← zpow_natCast, ← zpow_add₀ hb'.ne']
          congr 1
          omega
      _ ≤ (b : ℚ) ^ (guess + 1) * den := by gcongr; exact_mod_cast hden
  have hiff : den * b ^ guess.toNat ≤ num * b ^ (-guess).toNat ↔ (b : ℚ) ^ guess ≤ num / den := by
    rw [← Nat.cast_le (α := ℚ), le_div_iff₀ hpos]
    push_cast
    rw [← zpow_mul_pow_toNat hb'.ne' guess, ← mul_assoc,
      mul_le_mul_iff_of_pos_right (by positivity), mul_comm]
  split_ifs with h
  · exact (log_eq hb (hiff.mp h) hhigh).symm
  · have hlt : (num / den : ℚ) < (b : ℚ) ^ (guess - 1 + 1) := by
      rw [sub_add_cancel]
      exact not_le.mp fun hle => h (hiff.mpr hle)
    exact (log_eq hb hlow hlt).symm

theorem leadingBit_eq_log (hnum : 0 < num) (hden : 0 < den) :
    leadingBit num den = Int.log 2 (num / den : ℚ) :=
  leading_eq_log one_lt_two (Nat.log2_self_le hnum.ne') Nat.lt_log2_self (Nat.log2_self_le hden.ne')
    Nat.lt_log2_self rfl

end Quotient

/-! ## The nearest number -/

/-- How far below `m * 2 ^ e` its reals go, in units: half as far at a power of two. -/
def reach (m : ℕ) (e : ℤ) : ℚ := if m = 2 ^ 52 ∧ -1074 < e then 1 / 4 else 1 / 2

/-- The reals that `m * 2 ^ e` is the nearest number to, the ends for an even `m` only. -/
structure Near (m : ℕ) (e : ℤ) (v : ℚ) : Prop where
  low : (m - reach m e) * 2 ^ e ≤ v
  high : v ≤ (m + 1 / 2) * 2 ^ e
  odd : m % 2 = 1 → (m - reach m e) * 2 ^ e < v ∧ v < (m + 1 / 2) * 2 ^ e

section Nearest

variable {m num den : ℕ} {e : ℤ} {v : ℚ}

theorem reach_eq_half (h : m ≠ 2 ^ 52 ∨ e = -1074) : reach m e = 1 / 2 := by
  rw [reach, if_neg]
  omega

theorem reach_le_half (m : ℕ) (e : ℤ) : reach m e ≤ 1 / 2 := by
  unfold reach
  split_ifs <;> norm_num

theorem Near.pos (h : Near m e v) (hm : 0 < m) : 0 < v := by
  have hreach := reach_le_half m e
  have hm' : (1 : ℚ) ≤ m := by exact_mod_cast hm
  have hunit : (0 : ℚ) < 2 ^ e := by positivity
  nlinarith [h.low]

theorem Near.roundDiv_eq (h : Near m e (num / den : ℚ)) (hden : 0 < den) :
    roundDiv (num * Nat.pow 2 (-e).toNat) (den * Nat.pow 2 e.toNat) = m := by
  have hunit : (0 : ℚ) < 2 ^ e := by positivity
  have hreach := reach_le_half m e
  have hquotient : ((num * Nat.pow 2 (-e).toNat : ℕ) : ℚ) / ((den * Nat.pow 2 e.toNat : ℕ) : ℚ) =
      num / den / 2 ^ e := scaled_quotient two_ne_zero num den e
  refine CodeAtlas.roundDiv_eq (Nat.mul_pos hden (Nat.two_pow_pos _)) ?_ ?_ fun hodd => ?_
  · rw [hquotient, le_div_iff₀ hunit]
    nlinarith [h.low]
  · rw [hquotient, div_le_iff₀ hunit]
    exact h.high
  · rw [hquotient, lt_div_iff₀ hunit, div_lt_iff₀ hunit]
    refine ⟨?_, (h.odd hodd).2⟩
    nlinarith [(h.odd hodd).1]

theorem Near.finer (h : Near (2 ^ 52) e v) (he : -1074 < e) (hlt : v < 2 ^ 52 * 2 ^ e) :
    Near (2 ^ 53) (e - 1) v := by
  have hunit : (0 : ℚ) < 2 ^ e := by positivity
  have hhalf : (2 : ℚ) ^ (e - 1) = 2 ^ e / 2 := zpow_sub_one₀ two_ne_zero e
  have hreach : reach (2 ^ 52) e = 1 / 4 := if_pos ⟨rfl, he⟩
  have hreach' : reach (2 ^ 53) (e - 1) = 1 / 2 := reach_eq_half (Or.inl (by decide))
  have hlow := h.low
  rw [hreach] at hlow
  push_cast at hlow
  refine ⟨?_, ?_, fun hodd => absurd hodd (by decide)⟩
  · rw [hreach', hhalf]
    push_cast
    linarith
  · rw [hhalf]
    push_cast
    linarith

theorem nearestBits_eq {unit : ℤ} {size : ℕ}
    (hunit : max (leadingBit num den - 52) (-1074) = unit)
    (hsize : roundDiv (num * Nat.pow 2 (-unit).toNat) (den * Nat.pow 2 unit.toNat) = size) :
    nearestBits num den = min ((unit + 1074).toNat * 2 ^ 52 + size) infiniteBits := by
  subst hunit hsize
  rfl

theorem nearestBits_of_near (h : Packable m e) (he : e ≤ 971) (hden : 0 < den)
    (hnear : Near m e (num / den : ℚ)) :
    nearestBits num den = (e + 1074).toNat * 2 ^ 52 + m := by
  obtain ⟨hm, hlt, hleast, hfull⟩ := h
  have hv := hnear.pos hm
  have hnum : 0 < num := by
    rcases Nat.eq_zero_or_pos num with rfl | hnum
    · simp at hv
    · exact hnum
  have hunit : (0 : ℚ) < 2 ^ e := by positivity
  have hlog : Int.log 2 (num / den : ℚ) < e + 53 := by
    rw [← Int.lt_zpow_iff_log_lt one_lt_two hv]
    have hm' : (m : ℚ) + 1 ≤ 2 ^ 53 := by exact_mod_cast hlt
    calc (num / den : ℚ) ≤ (m + 1 / 2) * 2 ^ e := hnear.high
      _ < 2 ^ 53 * 2 ^ e := by gcongr; linarith
      _ = ((2 : ℕ) : ℚ) ^ (e + 53) := by rw [zpow_add₀ (by norm_num), mul_comm]; norm_num
  have hbits : (e + 1074).toNat * 2 ^ 52 + m ≤ infiniteBits := by
    have hlimit : infiniteBits = 2047 * 2 ^ 52 := rfl
    omega
  by_cases hpower : (2 ^ 52 : ℚ) * 2 ^ e ≤ num / den ∨ e = -1074
  · -- the unit of the quotient is that of the number
    have hlog' : e + 52 ≤ Int.log 2 (num / den : ℚ) ∨ e = -1074 := by
      refine hpower.imp_left fun hle => ?_
      rw [← Int.zpow_le_iff_le_log one_lt_two hv]
      refine le_of_eq_of_le ?_ hle
      rw [zpow_add₀ (by norm_num), mul_comm]
      norm_num
    have hmax : max (leadingBit num den - 52) (-1074) = e := by
      rw [leadingBit_eq_log hnum hden]
      omega
    rw [nearestBits_eq hmax (hnear.roundDiv_eq hden), min_eq_left hbits]
  · -- a power of two, approached from below
    rw [not_or, not_le] at hpower
    obtain ⟨hbelow, hne⟩ := hpower
    obtain rfl : m = 2 ^ 52 := by
      by_contra hm'
      have hle : (2 : ℚ) ^ 52 + 1 ≤ m := by exact_mod_cast (show 2 ^ 52 + 1 ≤ m by omega)
      have hlow := hnear.low
      rw [reach_eq_half (Or.inl hm')] at hlow
      nlinarith
    have hfiner := hnear.finer (by omega) hbelow
    have hlog' : Int.log 2 (num / den : ℚ) = e + 51 := by
      have hlow := hfiner.low
      rw [reach_eq_half (Or.inl (by decide)), zpow_sub_one₀ two_ne_zero] at hlow
      push_cast at hlow
      refine log_eq one_lt_two ?_ ?_
      · rw [zpow_add₀ (by norm_num)]
        norm_num
        linarith
      · rw [zpow_add₀ (by norm_num), zpow_add₀ (by norm_num)]
        norm_num
        linarith
    have hmax : max (leadingBit num den - 52) (-1074) = e - 1 := by
      rw [leadingBit_eq_log hnum hden]
      omega
    have hcarry : (e - 1 + 1074).toNat * 2 ^ 52 + 2 ^ 53 = (e + 1074).toNat * 2 ^ 52 + 2 ^ 52 := by
      omega
    rw [nearestBits_eq hmax (hfiner.roundDiv_eq hden), hcarry, min_eq_left hbits]

end Nearest

/-! ## Bits -/

section Bits

variable {x : Float} {s : Sign} {m : ℕ} {e : ℤ} {hm : 0 < m}

theorem toNat_packComponents (a m : ℕ) :
    (packComponents Format.binary64 .positive (BitVec.ofNat 11 a) (BitVec.ofNat 52 m)).toNat =
      a % 2 ^ 11 * 2 ^ 52 + m % 2 ^ 52 := by
  have hm : (BitVec.ofNat 52 m).toNat = m % 2 ^ 52 := BitVec.toNat_ofNat m 52
  have ha : (BitVec.ofNat 11 a).toNat = a % 2 ^ 11 := BitVec.toNat_ofNat a 11
  have hs : Sign.positive.toBitVec.toNat = 0 := rfl
  rw [packComponents]
  have : ((Sign.positive.toBitVec ++ BitVec.ofNat 11 a) ++ BitVec.ofNat 52 m).toNat =
      a % 2 ^ 11 * 2 ^ 52 + m % 2 ^ 52 := by
    rw [BitVec.toNat_append, ← Nat.shiftLeft_add_eq_or_of_lt (BitVec.isLt _), BitVec.toNat_append,
      ← Nat.shiftLeft_add_eq_or_of_lt (BitVec.isLt _), hm, ha, hs, Nat.shiftLeft_eq,
      Nat.shiftLeft_eq]
    omega
  exact this

theorem unpack_ofBits (h : Packable m e) (he : e ≤ 971) :
    (Float.ofBits (UInt64.ofNat ((e + 1074).toNat * 2 ^ 52 + m))).toModel.unpack =
      .finite .positive m e h.pos := by
  obtain ⟨hm, hlt, hleast, hfull⟩ := h
  have hnat : (UInt64.ofNat ((e + 1074).toNat * 2 ^ 52 + m)).toBitVec.toNat =
      (e + 1074).toNat * 2 ^ 52 + m := by
    rw [UInt64.toNat_toBitVec, UInt64.toNat_ofNat']
    omega
  have hunpack : UnpackedFloat.unpack Format.binary64
      (UInt64.ofNat ((e + 1074).toNat * 2 ^ 52 + m)).toBitVec = .finite .positive m e hm := by
    by_cases hnormal : 2 ^ 52 ≤ m
    · have hpacked : (UInt64.ofNat ((e + 1074).toNat * 2 ^ 52 + m)).toBitVec =
          packComponents Format.binary64 .positive (BitVec.ofNat 11 (e + 1075).toNat)
            (BitVec.ofNat 52 m) := by
        refine BitVec.eq_of_toNat_eq (hnat.trans ?_)
        rw [toNat_packComponents]
        omega
      rw [hpacked]
      exact unpack_normal (by omega) (by omega) (by omega) hnormal hlt
    · obtain rfl : e = -1074 := hfull.resolve_left hnormal
      have hpacked : (UInt64.ofNat ((-1074 + 1074 : ℤ).toNat * 2 ^ 52 + m)).toBitVec =
          packComponents Format.binary64 .positive 0#11 (BitVec.ofNat 52 m) := by
        refine BitVec.eq_of_toNat_eq (hnat.trans ?_)
        rw [toNat_packComponents 0]
        omega
      rw [hpacked]
      exact unpack_subnormal (by omega)
  change (Float.Model.pack (UnpackedFloat.unpack Format.binary64 _)).unpack = _
  rw [hunpack, Packable.unpack_pack ⟨hm, hlt, hleast, hfull⟩, if_pos he]

theorem unpack_fields (x : Float) :
    (@unpackExponent Format.binary64 x.toModel.toBits.toBitVec).toNat =
        ((x.toBits >>> 52) &&& 0x7FF).toNat ∧
      (@unpackMantissa Format.binary64 x.toModel.toBits.toBitVec).toNat =
        (x.toBits &&& 0xFFFFFFFFFFFFF).toNat ∧
      (Sign.ofBitVec (@unpackSign Format.binary64 x.toModel.toBits.toBitVec) = .negative ↔
        x.toBits >>> 63 = 1) := by
  change _ = ((x.toModel.toBits >>> 52) &&& 0x7FF).toNat ∧
    _ = (x.toModel.toBits &&& 0xFFFFFFFFFFFFF).toNat ∧ (_ ↔ x.toModel.toBits >>> 63 = 1)
  generalize x.toModel.toBits = bits
  have hlt := bits.toNat_lt
  refine ⟨?_, ?_, ?_⟩
  · rw [unpackExponent, BitVec.toNat_cast, BitVec.extractLsb_toNat, UInt64.toNat_and,
      UInt64.toNat_shiftRight]
    exact (Nat.and_two_pow_sub_one_eq_mod _ 11).symm
  · rw [unpackMantissa, BitVec.toNat_cast, BitVec.extractLsb_toNat, UInt64.toNat_and]
    exact (Nat.and_two_pow_sub_one_eq_mod _ 52).symm
  · have hsign : (@unpackSign Format.binary64 bits.toBitVec).toNat = bits.toNat / 2 ^ 63 := by
      rw [unpackSign, BitVec.toNat_cast, BitVec.extractLsb_toNat]
      change bits.toNat >>> 63 % 2 = _
      rw [Nat.shiftRight_eq_div_pow]
      omega
    have hshift : (bits >>> 63).toNat = bits.toNat / 2 ^ 63 := by
      rw [UInt64.toNat_shiftRight]
      exact Nat.shiftRight_eq_div_pow _ _
    rw [Sign.ofBitVec, ← UInt64.toNat_inj, hshift, ← hsign]
    have hone : UInt64.toNat 1 = (1#1).toNat := rfl
    rw [hone, BitVec.toNat_inj]
    rcases BitVec.eq_zero_or_eq_one (@unpackSign Format.binary64 bits.toBitVec) with h | h
    · simp [h]
    · simp [h]

theorem toNat_one_append (v : BitVec 52) : (1#1 ++ v).toNat = 2 ^ 52 + v.toNat := by
  rw [BitVec.toNat_append, ← Nat.shiftLeft_add_eq_or_of_lt (BitVec.isLt _)]
  rfl

theorem negative_eq (x : Float)
    (h : Sign.ofBitVec (@unpackSign Format.binary64 x.toModel.toBits.toBitVec) = s) :
    (x.toBits >>> 63 == 1) = (s == .negative) := by
  rw [← h, Bool.eq_iff_iff, beq_iff_eq, beq_iff_eq]
  exact (unpack_fields x).2.2.symm

theorem Binary.ofFloat?_cases (x : Float) :
    (∃ s m e, ∃ hm : 0 < m, x.toModel.unpack = .finite s m e hm ∧ Binary.ofFloat? x =
      some ⟨s == .negative, m, e, decide (m = 2 ^ 52 ∧ -1074 < e)⟩) ∨
    (∃ s, x.toModel.unpack = .zero s ∧
      Binary.ofFloat? x = some ⟨s == .negative, 0, -1074, false⟩) ∨
    ((x.toModel.unpack = .notANumber ∨ ∃ s, x.toModel.unpack = .infinity s) ∧
      Binary.ofFloat? x = none) := by
  obtain ⟨hexponent, hmantissa, -⟩ := unpack_fields x
  have hbias : (Format.binary64.exponentBias : Int) +
      (Format.binary64.mantissaBitsWithoutImplicit : Int) = 1075 := rfl
  have hlt : (@unpackMantissa Format.binary64 x.toModel.toBits.toBitVec).toNat < 2 ^ 52 :=
    BitVec.isLt _
  unfold Binary.ofFloat? Float.Model.unpack UnpackedFloat.unpack
  dsimp only
  rw [hbias, ← hexponent, ← hmantissa, negative_eq x rfl]
  generalize Sign.ofBitVec (@unpackSign Format.binary64 x.toModel.toBits.toBitVec) = s
  by_cases hall : @unpackExponent Format.binary64 x.toModel.toBits.toBitVec = -1#11
  · refine Or.inr (Or.inr ⟨?_, if_pos (by rw [hall]; rfl)⟩)
    rw [if_pos hall]
    split_ifs
    · exact Or.inr ⟨s, rfl⟩
    · exact Or.inl rfl
  have hall' : (@unpackExponent Format.binary64 x.toModel.toBits.toBitVec).toNat ≠ 0x7FF :=
    fun h => hall (BitVec.eq_of_toNat_eq h)
  rw [if_neg hall, if_neg hall']
  by_cases hnone : @unpackExponent Format.binary64 x.toModel.toBits.toBitVec = 0#11
  · have hnone' : (@unpackExponent Format.binary64 x.toModel.toBits.toBitVec).toNat = 0 := by
      rw [hnone]
      rfl
    rw [if_pos hnone, if_pos hnone', hnone']
    by_cases hzero : @unpackMantissa Format.binary64 x.toModel.toBits.toBitVec = 0#52
    · refine Or.inr (Or.inl ⟨s, dif_pos hzero, ?_⟩)
      rw [hzero]
      rfl
    · have hpos : 0 < (@unpackMantissa Format.binary64 x.toModel.toBits.toBitVec).toNat :=
        Nat.pos_of_ne_zero fun h => hzero (BitVec.eq_of_toNat_eq h)
      refine Or.inl ⟨s, _, _, hpos, dif_neg hzero, ?_⟩
      have hnarrow : ¬ ((@unpackMantissa Format.binary64 x.toModel.toBits.toBitVec).toNat = 2 ^ 52 ∧
        (-1074 : ℤ) < ((0 : ℕ) : ℤ) - 1075 + 1) := by omega
      rw [decide_eq_false hnarrow]
      rfl
  · have hnone' : (@unpackExponent Format.binary64 x.toModel.toBits.toBitVec).toNat ≠ 0 :=
      fun h => hnone (BitVec.eq_of_toNat_eq h)
    rw [if_neg hnone, if_neg hnone']
    have happend := toNat_one_append (@unpackMantissa Format.binary64 x.toModel.toBits.toBitVec)
    have hpos : 0 < (1#1 ++ @unpackMantissa Format.binary64 x.toModel.toBits.toBitVec).toNat := by
      rw [happend]
      omega
    refine Or.inl ⟨s, _, _, hpos, rfl, ?_⟩
    rw [Option.some_inj, Binary.mk.injEq]
    refine ⟨rfl, happend.symm, rfl, ?_⟩
    rw [Bool.eq_iff_iff, Bool.and_eq_true, beq_iff_eq, decide_eq_true_iff, decide_eq_true_iff,
      happend]
    omega

theorem eq_of_unpack_eq {x y : Float} (h : x.toModel.unpack = y.toModel.unpack) : x = y := by
  have hbits := (unpack_inj_of_valid x.toModel.valid y.toModel.valid (by decide)).mp h
  exact Float.toBits_inj.mp (UInt64.toBitVec_inj.mp hbits)

theorem nearestQuotient_of_near {num den : ℕ} (hx : x.toModel.unpack = .finite s m e hm)
    (hden : 0 < den) (hnear : Near m e (num / den : ℚ)) :
    signed (s == .negative) (nearestQuotient num den) = x := by
  obtain ⟨hpackable, he⟩ := packed_of_unpack hx
  have hnum : num ≠ 0 := by
    rintro rfl
    simpa using hnear.pos hm
  have hsize : (nearestQuotient num den).toModel.unpack = .finite .positive m e hm := by
    rw [nearestQuotient, if_neg hnum, nearestBits_of_near hpackable he hden hnear]
    exact unpack_ofBits hpackable he
  refine eq_of_unpack_eq (Eq.trans ?_ hx.symm)
  cases s with
  | positive => rwa [signed, if_neg (by decide)]
  | negative =>
    rw [signed, if_pos (by decide), unpack_neg, hsize]
    rfl

end Bits

end CodeAtlas
