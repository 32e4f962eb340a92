import CodeAtlas.Number.Binary
import Mathlib

/-!
# How far rounding goes

A finite number other than zero is `m * 2 ^ e`, and `m.log2 + e` is its size. Rounding to 53 digits
leaves the size as it is or raises it by one.

* **`rounds_roundWithAccuracy`**, `rounds_round`: what rounding does to a size.
* **`sqrt_mul_sqrt_ne_zero`**: a root that is not zero has a square that is not zero.
-/

namespace CodeAtlas

open Float.Model Float.Model.UnpackedFloat

/-! ## Leading digits -/

section Digits

variable {m n k : Nat}

theorem log2_mul_two_pow (hn : 0 < n) (k : Nat) : (n * 2 ^ k).log2 = n.log2 + k := by
  induction k with
  | zero => simp
  | succ k ih =>
    have hne : n * 2 ^ k ≠ 0 := Nat.ne_of_gt (Nat.mul_pos hn (Nat.two_pow_pos k))
    have hdouble : n * 2 ^ (k + 1) = 2 * (n * 2 ^ k) := by rw [Nat.pow_succ]; ac_rfl
    rw [hdouble, Nat.log2_two_mul hne, ih, Nat.add_assoc]

theorem log2_mono (h : m ≤ n) : m.log2 ≤ n.log2 := by
  rw [Nat.log2_eq_log_two, Nat.log2_eq_log_two]
  exact Nat.log_mono_right h

theorem log2_div_two_pow (n k : Nat) : (n / 2 ^ k).log2 = n.log2 - k := by
  rw [Nat.log2_eq_log_two, Nat.log2_eq_log_two, Nat.log_div_base_pow]

theorem log2_succ_le (hn : 0 < n) : (n + 1).log2 ≤ n.log2 + 1 := by
  have hlt : n < 2 ^ (n.log2 + 1) := Nat.lt_log2_self
  have hle : n + 1 < 2 ^ (n.log2 + 2) := by
    rw [Nat.pow_succ]
    omega
  exact Nat.le_of_lt_succ ((Nat.log2_lt (Nat.succ_ne_zero n)).mpr hle)

theorem log2_mul (hm : 0 < m) (hn : 0 < n) :
    m.log2 + n.log2 ≤ (m * n).log2 ∧ (m * n).log2 ≤ m.log2 + n.log2 + 1 := by
  have hne : m * n ≠ 0 := Nat.ne_of_gt (Nat.mul_pos hm hn)
  constructor
  · rw [Nat.le_log2 hne, Nat.pow_add]
    exact Nat.mul_le_mul (Nat.log2_self_le (Nat.ne_of_gt hm)) (Nat.log2_self_le (Nat.ne_of_gt hn))
  · refine Nat.le_of_lt_succ ((Nat.log2_lt hne).mpr ?_)
    have hpow : m.log2 + n.log2 + 1 + 1 = (m.log2 + 1) + (n.log2 + 1) := by omega
    rw [Nat.succ_eq_add_one, hpow, Nat.pow_add]
    exact Nat.mul_lt_mul'' Nat.lt_log2_self Nat.lt_log2_self

theorem log2_div (hn : 0 < n) (h : n.log2 < m.log2) :
    0 < m / n ∧ m.log2 - n.log2 - 1 ≤ (m / n).log2 ∧ (m / n).log2 ≤ m.log2 - n.log2 := by
  have hm : m ≠ 0 := fun hzero => by simp [hzero] at h
  have hle : 2 ^ (m.log2 - n.log2 - 1) ≤ m / n := by
    rw [Nat.le_div_iff_mul_le hn]
    calc 2 ^ (m.log2 - n.log2 - 1) * n
        ≤ 2 ^ (m.log2 - n.log2 - 1) * 2 ^ (n.log2 + 1) :=
          Nat.mul_le_mul_left _ (Nat.le_of_lt Nat.lt_log2_self)
      _ = 2 ^ m.log2 := by rw [← Nat.pow_add]; congr 1; omega
      _ ≤ m := Nat.log2_self_le hm
  have hlt : m / n < 2 ^ (m.log2 - n.log2 + 1) := by
    rw [Nat.div_lt_iff_lt_mul hn]
    calc m < 2 ^ (m.log2 + 1) := Nat.lt_log2_self
      _ = 2 ^ (m.log2 - n.log2 + 1) * 2 ^ n.log2 := by rw [← Nat.pow_add]; congr 1; omega
      _ ≤ 2 ^ (m.log2 - n.log2 + 1) * n :=
        Nat.mul_le_mul_left _ (Nat.log2_self_le (Nat.ne_of_gt hn))
  have hpos : 0 < m / n := Nat.lt_of_lt_of_le (Nat.two_pow_pos _) hle
  refine ⟨hpos, (Nat.le_log2 (Nat.ne_of_gt hpos)).mpr hle, ?_⟩
  exact Nat.le_of_lt_succ ((Nat.log2_lt (Nat.ne_of_gt hpos)).mpr hlt)

theorem log2_sqrt (hm : 0 < m) : m.log2 / 2 ≤ m.sqrt.log2 := by
  have hroot : m.sqrt ≠ 0 := fun hzero => Nat.ne_of_gt hm (Nat.sqrt_eq_zero.mp hzero)
  rw [Nat.le_log2 hroot, Nat.le_sqrt, ← Nat.pow_add]
  calc 2 ^ (m.log2 / 2 + m.log2 / 2) ≤ 2 ^ m.log2 :=
        Nat.pow_le_pow_right Nat.two_pos (by omega)
    _ ≤ m := Nat.log2_self_le (Nat.ne_of_gt hm)

end Digits

/-! ## Packed numbers -/

/-- Digits and exponent as packed: 53 digits, or fewer with the least exponent. -/
structure Packable (m : Nat) (e : Int) : Prop where
  pos : 0 < m
  lt : m < 2 ^ 53
  least : -1074 ≤ e
  full : 2 ^ 52 ≤ m ∨ e = -1074

section Packed

variable {s : Sign} {m : Nat} {e : Int} {hm : 0 < m}

theorem packed_of_unpack {bits : BitVec 64}
    (h : UnpackedFloat.unpack Format.binary64 bits = .finite s m e hm) :
    Packable m e ∧ e ≤ 971 := by
  have hbias : (Format.binary64.exponentBias : Int) +
      (Format.binary64.mantissaBitsWithoutImplicit : Int) = 1075 := rfl
  have hlt : (@unpackMantissa Format.binary64 bits).toNat < 2 ^ 52 := BitVec.isLt _
  have hall : (@unpackExponent Format.binary64 bits).toNat < 2 ^ 11 := BitVec.isLt _
  unfold UnpackedFloat.unpack at h
  dsimp only at h
  rw [hbias] at h
  split at h
  · split at h <;> cases h
  rename_i hfinite
  have hfinite : (@unpackExponent Format.binary64 bits).toNat ≠ 2047 :=
    fun hmax => hfinite (BitVec.eq_of_toNat_eq hmax)
  split at h
  · rename_i hzero
    split at h
    · cases h
    · cases h
      rw [hzero]
      exact ⟨⟨hm, by omega, by decide, Or.inr (by decide)⟩, by decide⟩
  · rename_i hexponent
    have hpos : (@unpackExponent Format.binary64 bits).toNat ≠ 0 :=
      fun h0 => hexponent (BitVec.eq_of_toNat_eq h0)
    have happend : (1#1 ++ @unpackMantissa Format.binary64 bits).toNat =
        2 ^ 52 + (@unpackMantissa Format.binary64 bits).toNat := by
      rw [BitVec.toNat_append, ← Nat.shiftLeft_add_eq_or_of_lt (BitVec.isLt _)]
      rfl
    cases h
    exact ⟨⟨hm, by omega, by omega, Or.inl (by omega)⟩, by omega⟩

theorem toNat_append_one (hle : 2 ^ 52 ≤ m) (hlt : m < 2 ^ 53) :
    (1#1 ++ BitVec.ofNat 52 m).toNat = m := by
  have hone : (1#1).toNat <<< 52 = 2 ^ 52 := rfl
  have hrest : (BitVec.ofNat 52 m).toNat = m % 2 ^ 52 := BitVec.toNat_ofNat m 52
  rw [BitVec.toNat_append, ← Nat.shiftLeft_add_eq_or_of_lt (BitVec.isLt _), hone, hrest]
  omega

@[simp]
theorem unpack_pack_zero (s : Sign) : (Float.Model.pack (.zero s)).unpack = .zero s := by
  cases s <;> rfl

@[simp]
theorem unpack_pack_notANumber : (Float.Model.pack .notANumber).unpack = .notANumber := rfl

@[simp]
theorem unpack_pack_infinity (s : Sign) :
    (Float.Model.pack (.infinity s)).unpack = .infinity s := by
  cases s <;> rfl

theorem unpack_normal {a : Nat} (ha : 0 < a) (ha' : a < 2047) (he : (a : Int) - 1075 = e)
    (hle : 2 ^ 52 ≤ m) (hlt : m < 2 ^ 53) :
    UnpackedFloat.unpack Format.binary64
        (packComponents Format.binary64 s (BitVec.ofNat 11 a) (BitVec.ofNat 52 m)) =
      .finite s m e hm := by
  have hexponent : (BitVec.ofNat 11 a).toNat = a := by
    rw [BitVec.toNat_ofNat]
    omega
  have hfinite : BitVec.ofNat 11 a ≠ -1#11 := by
    intro h
    have hall : (-1#11).toNat = 2047 := rfl
    have hnat := congrArg BitVec.toNat h
    omega
  have hnormal : BitVec.ofNat 11 a ≠ 0#11 := by
    intro h
    have hzero : (0#11).toNat = 0 := rfl
    have hnat := congrArg BitVec.toNat h
    omega
  have hbias : (Format.binary64.exponentBias : Int) + (52 : Nat) = 1075 := rfl
  rw [UnpackedFloat.unpack]
  simp only [unpackMantissa_packComponents, unpackExponent_packComponents,
    unpackSign_packComponents, Sign.ofBitVec_toBitVec, hfinite, hnormal, if_false, hexponent,
    toNat_append_one hle hlt, hbias, he]

theorem unpack_subnormal (hlt : m < 2 ^ 52) :
    UnpackedFloat.unpack Format.binary64
        (packComponents Format.binary64 s 0#11 (BitVec.ofNat 52 m)) = .finite s m (-1074) hm := by
  have hmantissa : (BitVec.ofNat 52 m).toNat = m := by
    rw [BitVec.toNat_ofNat]
    omega
  have hfinite : 0#11 ≠ -1#11 := by decide
  have hne : BitVec.ofNat 52 m ≠ 0#52 := by
    intro h
    have hnat := congrArg BitVec.toNat h
    rw [hmantissa] at hnat
    exact Nat.ne_of_gt hm hnat
  rw [UnpackedFloat.unpack]
  simp only [unpackMantissa_packComponents, unpackExponent_packComponents,
    unpackSign_packComponents, Sign.ofBitVec_toBitVec, hfinite, hne, if_false, if_true,
    dif_neg, not_false_eq_true, hmantissa]
  rfl

theorem Packable.unpack_pack (h : Packable m e) :
    (Float.Model.pack (.finite s m e hm)).unpack =
      if e ≤ 971 then .finite s m e hm else .infinity s := by
  obtain ⟨-, hlt, hleast, hfull⟩ := h
  have hbias : e + (Format.binary64.exponentBias : Int) +
      (Format.binary64.mantissaBitsWithoutImplicit : Int) = e + 1075 := by
    have hconst : (Format.binary64.exponentBias : Int) +
      (Format.binary64.mantissaBitsWithoutImplicit : Int) = 1075 := rfl
    omega
  have hbits : Format.binary64.mantissaBits = 53 := rfl
  have hlarge : 2 ^ Format.binary64.exponentBits = 2048 := rfl
  change UnpackedFloat.unpack Format.binary64 (UnpackedFloat.pack Format.binary64 _) = _
  rw [UnpackedFloat.pack]
  dsimp only
  rw [hbias, hbits, hlarge]
  by_cases he : e ≤ 971
  · rw [if_neg (by omega), if_pos he]
    by_cases hnormal : 2 ^ 52 ≤ m
    · have hdigits : m.log2 = 52 := (Nat.log2_eq_iff (Nat.ne_of_gt hm)).mpr ⟨hnormal, hlt⟩
      rw [if_pos (by omega)]
      exact unpack_normal (by omega) (by omega) (by omega) hnormal hlt
    · have hdigits : m.log2 < 52 := (Nat.log2_lt (Nat.ne_of_gt hm)).mpr (by omega)
      obtain rfl : e = -1074 := hfull.resolve_left hnormal
      rw [if_neg (by omega)]
      exact unpack_subnormal (by omega)
  · rw [if_pos (by omega), if_neg he]
    exact unpack_pack_infinity s

theorem unpack_neg (x : Float) : (-x).toModel.unpack = UnpackedFloat.neg x.toModel.unpack := by
  change (Float.Model.pack (UnpackedFloat.neg x.toModel.unpack)).unpack = _
  cases hx : x.toModel.unpack with
  | notANumber => rfl
  | zero s => exact unpack_pack_zero _
  | infinity s => exact unpack_pack_infinity _
  | finite s m e hm =>
    rw [UnpackedFloat.neg, (packed_of_unpack hx).1.unpack_pack, if_pos (packed_of_unpack hx).2]

end Packed

/-! ## Rounding -/

section Rounding

variable {s : Sign} {m : Nat} {e : Int}

theorem targetExponent_binary64 (total : Int) :
    Format.binary64.targetExponent total = max (total - 53) (-1074) := rfl

theorem mantissa_shiftRight (em : ExtendedMantissa) (k : Nat) :
    (em >>> k).mantissa = em.mantissa / 2 ^ k := by
  change (Nat.repeat ExtendedMantissa.shiftRightOne k em).mantissa = _
  induction k with
  | zero => simp [Nat.repeat]
  | succ k ih =>
    rw [Nat.repeat, ExtendedMantissa.shiftRightOne, ih, Nat.div_div_eq_div_mul, Nat.pow_succ]

theorem roundedMantissa_bounds (em : ExtendedMantissa) :
    em.mantissa ≤ em.roundedMantissa ∧ em.roundedMantissa ≤ em.mantissa + 1 := by
  obtain ⟨m, _ | _, _ | _⟩ := em <;>
    simp [ExtendedMantissa.roundedMantissa, ExtendedMantissa.accuracy,
      Accuracy.roundToNearestEven]
  omega

theorem mantissa_ofMantissaAndAccuracy (m : Nat) (accuracy : Accuracy) :
    (ExtendedMantissa.ofMantissaAndAccuracy m accuracy).mantissa = m := by
  obtain _ | _ | _ | _ := accuracy <;> rfl

/-- The exponent for 53 digits, or the least one. -/
def fullExponent (m : Nat) (e : Int) : Int := max ((m.log2 : Int) + e - 52) (-1074)

theorem targetExponent_eq_full (m : Nat) (e : Int) :
    Format.binary64.targetExponent (totalExponent m e) = fullExponent m e := by
  rw [targetExponent_binary64, totalExponent, fullExponent]
  omega

theorem shiftToTargetExponent_eq (m : Nat) (e : Int) (accuracy : Accuracy) :
    (shiftToTargetExponent Format.binary64 m e accuracy).1.mantissa =
        m / 2 ^ (fullExponent m e - e).toNat ∧
      (shiftToTargetExponent Format.binary64 m e accuracy).2 = max e (fullExponent m e) := by
  rw [shiftToTargetExponent, targetExponent_eq_full, shiftToExponent]
  dsimp only
  rw [mantissa_shiftRight, mantissa_ofMantissaAndAccuracy]
  refine ⟨rfl, ?_⟩
  omega

/-- What a number of the given sign and size becomes when it is rounded and packed. -/
inductive Rounds (s : Sign) (size : Int) : UnpackedFloat → Prop
  | finite {m : Nat} {e : Int} (hm : 0 < m) (hlow : size ≤ m.log2 + e)
      (hhigh : (m.log2 : Int) + e ≤ max (size + 1) (-1074)) : Rounds s size (.finite s m e hm)
  | zero (h : size < -1074) : Rounds s size (.zero s)
  | infinity (h : 1023 ≤ size) : Rounds s size (.infinity s)

theorem Packable.rounds {size : Int} (h : Packable m e) (hm : 0 < m) (hlow : size ≤ m.log2 + e)
    (hhigh : (m.log2 : Int) + e ≤ max (size + 1) (-1074)) :
    Rounds s size (Float.Model.pack (.finite s m e hm)).unpack := by
  rw [h.unpack_pack]
  split_ifs with he
  · exact .finite hm hlow hhigh
  · have hdigits : 52 ≤ m.log2 :=
      (Nat.le_log2 (Nat.ne_of_gt hm)).mpr (h.full.resolve_right (by omega))
    exact .infinity (by omega)

/-- The number with rounded digits; a carry out of 53 digits moves the exponent. -/
def carried (s : Sign) (r : Nat) (t : Int) : UnpackedFloat :=
  if h : r = 0 then .zero s
  else if r < 2 ^ 53 then .finite s r t (Nat.pos_of_ne_zero h)
  else .finite s (2 ^ 52) (t + 1) (Nat.two_pow_pos 52)

theorem roundWithAccuracy_eq (s : Sign) (he : e ≤ fullExponent m e) (accuracy : Accuracy) :
    ∃ r, m / 2 ^ (fullExponent m e - e).toNat ≤ r ∧
      r ≤ m / 2 ^ (fullExponent m e - e).toNat + 1 ∧ r ≤ 2 ^ 53 ∧
      roundWithAccuracy Format.binary64 s m e accuracy = carried s r (fullExponent m e) := by
  obtain ⟨hcut, hexponent⟩ := shiftToTargetExponent_eq m e accuracy
  rw [max_eq_right he] at hexponent
  obtain ⟨hlow, hhigh⟩ :=
    roundedMantissa_bounds (shiftToTargetExponent Format.binary64 m e accuracy).1
  rw [hcut] at hlow hhigh
  have hleast : -1074 ≤ fullExponent m e := le_max_right _ _
  have hr53 : (shiftToTargetExponent Format.binary64 m e accuracy).1.roundedMantissa ≤ 2 ^ 53 := by
    have hlog := log2_div_two_pow m (fullExponent m e - e).toNat
    have hfull : fullExponent m e = max ((m.log2 : Int) + e - 52) (-1074) := rfl
    by_cases hzero : m / 2 ^ (fullExponent m e - e).toNat = 0
    · omega
    · have hlt := (Nat.log2_lt (k := 53) hzero).mp (by omega)
      omega
  refine ⟨_, hlow, hhigh, hr53, ?_⟩
  rw [roundWithAccuracy]
  dsimp only
  rw [hexponent]
  generalize (shiftToTargetExponent Format.binary64 m e accuracy).1.roundedMantissa = r at *
  generalize fullExponent m e = t at *
  -- the second shift does something only after a carry
  obtain ⟨hagain, hexponent'⟩ := shiftToTargetExponent_eq r t .exact
  rw [carried]
  by_cases hfits : r < 2 ^ 53
  · have hstay : fullExponent r t ≤ t := by
      have hlog : r.log2 ≤ 52 := by
        by_cases hzero : r = 0
        · simp [hzero]
        · exact Nat.le_of_lt_succ ((Nat.log2_lt hzero).mpr hfits)
      rw [fullExponent]
      omega
    have hnone : (fullExponent r t - t).toNat = 0 := by omega
    rw [hnone, Nat.pow_zero, Nat.div_one] at hagain
    rw [max_eq_left hstay] at hexponent'
    by_cases hzero : r = 0
    · rw [dif_pos (hagain.trans hzero), dif_pos hzero]
    · rw [dif_neg (by rw [hagain]; exact hzero), dif_neg hzero, if_pos hfits]
      simp only [hagain, hexponent']
  · obtain rfl : r = 2 ^ 53 := by omega
    have hcarry : fullExponent (2 ^ 53) t = t + 1 := by
      have hlog : Nat.log2 (2 ^ 53) = 53 := Nat.log2_two_pow
      rw [fullExponent, hlog]
      omega
    have hone : (t + 1 - t).toNat = 1 := by omega
    have hhalf : 2 ^ 53 / 2 ^ 1 = 2 ^ 52 := rfl
    rw [hcarry, hone, hhalf] at hagain
    rw [hcarry, max_eq_right (by omega)] at hexponent'
    rw [dif_neg (by rw [hagain]; decide), dif_neg (by decide), if_neg hfits]
    simp only [hagain, hexponent']

/-- **A number that has enough digits is rounded.** -/
theorem rounds_roundWithAccuracy (s : Sign) (hm : 0 < m) (he : e ≤ fullExponent m e)
    (accuracy : Accuracy) :
    Rounds s (m.log2 + e)
      (Float.Model.pack (roundWithAccuracy Format.binary64 s m e accuracy)).unpack := by
  obtain ⟨r, hlow, hhigh, hr53, heq⟩ := roundWithAccuracy_eq s he accuracy
  have hlog := log2_div_two_pow m (fullExponent m e - e).toNat
  have hfull : fullExponent m e = max ((m.log2 : Int) + e - 52) (-1074) := rfl
  -- all digits are lost if there are none for the least exponent
  have hlost : m / 2 ^ (fullExponent m e - e).toNat = 0 ↔
      m.log2 < (fullExponent m e - e).toNat := by
    rw [Nat.div_eq_zero_iff_lt (Nat.two_pow_pos _), Nat.log2_lt (Nat.ne_of_gt hm)]
  rw [heq]
  generalize hk : (fullExponent m e - e).toNat = k at *
  generalize fullExponent m e = t at *
  generalize m / 2 ^ k = q at *
  unfold carried
  split_ifs with hzero hfits
  · rw [unpack_pack_zero]
    have hlt := hlost.mp (by omega)
    exact .zero (by omega)
  · have hpackable : Packable r t := by
      refine ⟨Nat.pos_of_ne_zero hzero, hfits, by omega, ?_⟩
      by_cases hleast : t = -1074
      · exact Or.inr hleast
      · have hq : q ≠ 0 := fun hq => by have hlt := hlost.mp hq; omega
        have hle : 2 ^ 52 ≤ q := (Nat.le_log2 hq).mp (by omega)
        exact Or.inl (hle.trans hlow)
    by_cases hq : q = 0
    · obtain rfl : r = 1 := by omega
      have hlt := hlost.mp hq
      have hone : Nat.log2 1 = 0 := rfl
      exact hpackable.rounds _ (by omega) (by omega)
    · have hkept : ¬ m.log2 < k := fun hlt => hq (hlost.mpr hlt)
      have hmono := log2_mono hlow
      have hsucc := (log2_mono hhigh).trans (log2_succ_le (Nat.pos_of_ne_zero hq))
      exact hpackable.rounds _ (by omega) (by omega)
  · have hq : q ≠ 0 := by omega
    have hkept : ¬ m.log2 < k := fun hlt => hq (hlost.mpr hlt)
    have hdigits : 52 ≤ q.log2 := (Nat.le_log2 hq).mpr (by omega)
    have hlog52 : Nat.log2 (2 ^ 52) = 52 := Nat.log2_two_pow
    have hpackable : Packable (2 ^ 52) (t + 1) :=
      ⟨Nat.two_pow_pos 52, by decide, by omega, Or.inl (Nat.le_refl _)⟩
    exact hpackable.rounds _ (by omega) (by omega)

/-- **A number is rounded,** however few digits it has. -/
theorem rounds_round (s : Sign) (hm : 0 < m) (e : Int) :
    Rounds s (m.log2 + e)
      (Float.Model.pack (UnpackedFloat.round Format.binary64 s m e)).unpack := by
  rw [UnpackedFloat.round, targetExponent_eq_full, decreaseExponent]
  dsimp only
  generalize hk : (e - fullExponent m e).toNat = k
  have hlog := log2_mul_two_pow hm k
  have hsize : ((m * 2 ^ k).log2 : Int) + (e - k) = m.log2 + e := by omega
  have hfull : fullExponent (m * 2 ^ k) (e - k) = fullExponent m e := by
    rw [fullExponent, fullExponent, hsize]
  rw [Nat.shiftLeft_eq, ← hsize]
  exact rounds_roundWithAccuracy s (Nat.mul_pos hm (Nat.two_pow_pos k)) (by omega) .exact

end Rounding

/-! ## Products, quotients and roots -/

section Operations

variable {s s' : Sign} {low high low' high' : Int} {x y : Float}

/-- The number is finite and not zero, and its leading digit is in the range. -/
def Sized (s : Sign) (low high : Int) (x : Float) : Prop :=
  ∃ m e hm, x.toModel.unpack = .finite s m e hm ∧ low ≤ m.log2 + e ∧ (m.log2 : Int) + e ≤ high

theorem Rounds.sized {size : Int} (h : Rounds s size x.toModel.unpack) (hlow : -1074 ≤ size)
    (hhigh : size < 1023) : Sized s size (size + 1) x := by
  generalize hx : x.toModel.unpack = u at h
  cases h with
  | finite hm hlow' hhigh' => exact ⟨_, _, hm, hx, hlow', by omega⟩
  | zero h => omega
  | infinity h => omega

theorem Sized.mono (h : Sized s low high x) (hlow : low' ≤ low) (hhigh : high ≤ high') :
    Sized s low' high' x := by
  obtain ⟨m, e, hm, hx, hle, hge⟩ := h
  exact ⟨m, e, hm, hx, hlow.trans hle, hge.trans hhigh⟩

theorem Packable.enough {m : Nat} {e : Int} (h : Packable m e) :
    52 ≤ m.log2 ∨ e = -1074 :=
  h.full.imp_left (Nat.le_log2 (Nat.ne_of_gt h.pos)).mpr

theorem unpack_mul (x y : Float) :
    (x * y).toModel.unpack = (Float.Model.pack (UnpackedFloat.mul Format.binary64
      x.toModel.unpack y.toModel.unpack)).unpack := rfl

theorem unpack_sqrt (x : Float) :
    x.sqrt.toModel.unpack =
      (Float.Model.pack (UnpackedFloat.sqrt Format.binary64 x.toModel.unpack)).unpack := rfl

theorem rounds_mul {m n : Nat} {e f : Int} {hm : 0 < m} {hn : 0 < n}
    (hx : x.toModel.unpack = .finite s m e hm) (hy : y.toModel.unpack = .finite s' n f hn) :
    Rounds (s * s') ((m * n).log2 + (e + f)) (x * y).toModel.unpack := by
  have hxe := (packed_of_unpack hx).1.enough
  have hye := (packed_of_unpack hy).1.enough
  have hxl := (packed_of_unpack hx).1.least
  have hyl := (packed_of_unpack hy).1.least
  have hlog := (log2_mul hm hn).1
  rw [unpack_mul, hx, hy]
  refine rounds_roundWithAccuracy _ (Nat.mul_pos hm hn) ?_ .exact
  rw [fullExponent]
  omega

theorem Sized.mul (hx : Sized s low high x) (hy : Sized s' low' high' y)
    (hlow : -1074 ≤ low + low') (hhigh : high + high' < 1022) :
    Sized (s * s') (low + low') (high + high' + 2) (x * y) := by
  obtain ⟨m, e, hm, hxm, hxlow, hxhigh⟩ := hx
  obtain ⟨n, f, hn, hyn, hylow, hyhigh⟩ := hy
  obtain ⟨hle, hge⟩ := log2_mul hm hn
  exact ((rounds_mul hxm hyn).sized (by omega) (by omega)).mono (by omega) (by omega)

theorem rounds_div {m n : Nat} {e f : Int} {hm : 0 < m} {hn : 0 < n}
    (hx : x.toModel.unpack = .finite s m e hm) (hy : y.toModel.unpack = .finite s' n f hn)
    (hsize : -1000 ≤ (m.log2 : Int) + e - (n.log2 + f)) :
    ∃ size, (m.log2 : Int) + e - (n.log2 + f) - 1 ≤ size ∧
      size ≤ (m.log2 : Int) + e - (n.log2 + f) ∧ Rounds (s / s') size (x / y).toModel.unpack := by
  have htotal : totalExponent m e - totalExponent n f = (m.log2 : Int) + e - (n.log2 + f) := by
    rw [totalExponent, totalExponent]
    omega
  have hdiv : (x / y).toModel.unpack = (Float.Model.pack (UnpackedFloat.div Format.binary64
      (.finite s m e hm) (.finite s' n f hn))).unpack := by
    rw [← hx, ← hy]
    rfl
  rw [hdiv, UnpackedFloat.div, divCore, htotal, targetExponent_binary64]
  dsimp only
  generalize ht : min (e - f) (max ((m.log2 : Int) + e - (n.log2 + f) - 53) (-1074)) = t
  generalize hk : (e - f - t).toNat = k
  rw [Nat.shiftLeft_eq]
  have hlog := log2_mul_two_pow hm k
  obtain ⟨hpos, hle, hge⟩ := log2_div hn (m := m * 2 ^ k) (by omega)
  refine ⟨_, ?_, ?_, rounds_roundWithAccuracy _ hpos ?_ _⟩
  · omega
  · omega
  · rw [fullExponent]
    omega

theorem Sized.div (hx : Sized s low high x) (hy : Sized s' low' high' y)
    (hlow : -1000 ≤ low - high') (hhigh : high - low' < 1022) :
    Sized (s / s') (low - high' - 1) (high - low' + 1) (x / y) := by
  obtain ⟨m, e, hm, hxm, hxlow, hxhigh⟩ := hx
  obtain ⟨n, f, hn, hyn, hylow, hyhigh⟩ := hy
  obtain ⟨size, hle, hge, hrounds⟩ := rounds_div hxm hyn (by omega)
  exact (hrounds.sized (by omega) (by omega)).mono (by omega) (by omega)

theorem rounds_sqrt {m : Nat} {e : Int} {hm : 0 < m}
    (hx : x.toModel.unpack = .finite .positive m e hm) :
    ∃ size, -537 ≤ size ∧ Rounds .positive size x.sqrt.toModel.unpack := by
  have hleast := (packed_of_unpack hx).1.least
  rw [unpack_sqrt, hx, UnpackedFloat.sqrt, sqrtCore, targetExponent_binary64, totalExponent]
  dsimp only
  generalize ht : min (e.ediv 2) (max (((m.log2 : Int) + 1 + e + 1).ediv 2 - 53) (-1074)) = t
  generalize hk : (e - 2 * t).toNat = k
  change min (e / 2) (max (((m.log2 : Int) + 1 + e + 1) / 2 - 53) (-1074)) = t at ht
  rw [Nat.shiftLeft_eq]
  have hlog := log2_mul_two_pow hm k
  have hmk : 0 < m * 2 ^ k := Nat.mul_pos hm (Nat.two_pow_pos k)
  have hroot := log2_sqrt hmk
  refine ⟨_, ?_, rounds_roundWithAccuracy _ (Nat.sqrt_pos.mpr hmk) ?_ _⟩
  · omega
  · rw [fullExponent]
    omega

end Operations

/-! ## Signs and zero -/

section Signs

variable {size : Int} {x y : Float}

theorem unpack_zero : (0 : Float).toModel.unpack = .zero .positive := rfl

theorem beq_zero_iff : (x == 0) = true ↔ ∃ s, x.toModel.unpack = .zero s := by
  change UnpackedFloat.beq _ _ = true ↔ _
  rw [UnpackedFloat.beq, beq_iff_eq, unpack_zero]
  generalize x.toModel.unpack = u
  rcases u with (_ | _) | _ | (_ | _) | ⟨_ | _, m, e, hm⟩ <;> simp [UnpackedFloat.compare]

/-- The numbers that are not below zero. -/
inductive NotNegative : UnpackedFloat → Prop
  | undefined : NotNegative .notANumber
  | infinity : NotNegative (.infinity .positive)
  | zero (s : Sign) : NotNegative (.zero s)
  | finite {m : Nat} {e : Int} (hm : 0 < m) : NotNegative (.finite .positive m e hm)

attribute [simp] NotNegative.undefined NotNegative.infinity NotNegative.zero

theorem not_lt_zero_iff : ¬ x < 0 ↔ NotNegative x.toModel.unpack := by
  have hlt : x < 0 ↔ x.toModel.unpack.compare (.zero .positive) = some .lt := by
    change decide (x.toModel < (0 : Float).toModel) = true ↔ _
    rw [decide_eq_true_iff]
    change UnpackedFloat.lt _ _ = true ↔ _
    rw [UnpackedFloat.lt, beq_iff_eq, unpack_zero]
  rw [hlt]
  generalize x.toModel.unpack = u
  constructor
  · intro h
    rcases u with (_ | _) | _ | s | ⟨_ | _, m, e, hm⟩
    · exact absurd rfl h
    · exact .infinity
    · exact .undefined
    · exact .zero s
    · exact absurd rfl h
    · exact .finite hm
  · intro h
    cases h <;> simp [UnpackedFloat.compare]

theorem Rounds.notNegative {u : UnpackedFloat} (h : Rounds .positive size u) : NotNegative u := by
  cases h with
  | finite hm => exact .finite hm
  | zero => exact .zero _
  | infinity => exact .infinity

theorem Sign.mul_self (s : Sign) : s * s = .positive := by
  cases s <;> rfl

theorem not_mul_self_lt_zero (x : Float) : ¬ x * x < 0 := by
  rw [not_lt_zero_iff]
  cases hx : x.toModel.unpack with
  | notANumber =>
    rw [unpack_mul, hx]
    exact .undefined
  | infinity s =>
    rw [unpack_mul, hx, UnpackedFloat.mul, Sign.mul_self, unpack_pack_infinity]
    exact .infinity
  | zero s =>
    rw [unpack_mul, hx, UnpackedFloat.mul, unpack_pack_zero]
    exact .zero _
  | finite s m e hm =>
    have hrounds := rounds_mul hx hx
    rw [Sign.mul_self] at hrounds
    exact hrounds.notNegative

variable {m : Nat} {s : Sign} {low high : Int} {e : Int}

theorem notNegative_pack {hm : 0 < m} (hx : x.toModel.unpack = .finite .positive m e hm) :
    NotNegative (Float.Model.pack (.finite .positive m e hm)).unpack := by
  rw [(packed_of_unpack hx).1.unpack_pack]
  split_ifs
  · exact .finite hm
  · exact .infinity

theorem normalize_natCast (hm : 0 < m) (e : Int) (s : Sign) :
    UnpackedFloat.normalize Format.binary64 (m : Int) e s =
      UnpackedFloat.round Format.binary64 .positive m e := by
  have hcompare : compare (m : Int) 0 = .gt := Int.compare_eq_gt.mpr (by omega)
  rw [UnpackedFloat.normalize, hcompare]
  rfl

theorem not_add_lt_zero (hx : ¬ x < 0) (hy : ¬ y < 0) : ¬ x + y < 0 := by
  rw [not_lt_zero_iff] at hx hy ⊢
  have hadd : (x + y).toModel.unpack = (Float.Model.pack (UnpackedFloat.add Format.binary64
      x.toModel.unpack y.toModel.unpack)).unpack := rfl
  rw [hadd]
  generalize hu : x.toModel.unpack = u at *
  generalize hv : y.toModel.unpack = v at *
  cases hx with
  | undefined => simp [UnpackedFloat.add]
  | infinity => cases hy <;> simp [UnpackedFloat.add]
  | zero s =>
    cases hy with
    | undefined => simp [UnpackedFloat.add]
    | infinity => simp [UnpackedFloat.add]
    | zero s' => cases s <;> cases s' <;> simp [UnpackedFloat.add]
    | finite => exact notNegative_pack hv
  | @finite m e hm =>
    cases hy with
    | undefined => simp [UnpackedFloat.add]
    | infinity => simp [UnpackedFloat.add]
    | zero => exact notNegative_pack hu
    | @finite n f hn =>
      have hpos : 0 < m <<< (e - min e f).toNat + n <<< (f - min e f).toNat := by
        rw [Nat.shiftLeft_eq, Nat.shiftLeft_eq]
        exact Nat.add_pos_left (Nat.mul_pos hm (Nat.two_pow_pos _)) _
      rw [UnpackedFloat.add]
      dsimp only [decreaseExponent, Sign.apply]
      rw [← Int.natCast_add, normalize_natCast hpos]
      exact (rounds_round _ hpos _).notNegative

theorem sqrt_cases (x : Float) :
    x.sqrt.toModel.unpack = .notANumber ∨ (∃ s, x.sqrt.toModel.unpack = .infinity s) ∨
    (∃ s, x.toModel.unpack = .zero s ∧ x.sqrt.toModel.unpack = .zero s) ∨
    ∃ m e hm, x.sqrt.toModel.unpack = .finite .positive m e hm ∧ -537 ≤ (m.log2 : Int) + e := by
  rcases hx : x.toModel.unpack with (_ | _) | _ | s | ⟨_ | _, m, e, hm⟩
  · exact Or.inl (by rw [unpack_sqrt, hx]; rfl)
  · exact Or.inr (Or.inl ⟨_, by rw [unpack_sqrt, hx]; rfl⟩)
  · exact Or.inl (by rw [unpack_sqrt, hx]; rfl)
  · exact Or.inr (Or.inr (Or.inl ⟨s, rfl, by rw [unpack_sqrt, hx]; exact unpack_pack_zero s⟩))
  · exact Or.inl (by rw [unpack_sqrt, hx, UnpackedFloat.sqrt, unpack_pack_notANumber])
  · obtain ⟨size, hsize, hrounds⟩ := rounds_sqrt hx
    generalize x.sqrt.toModel.unpack = u at *
    cases hrounds with
    | finite hm hlow => exact Or.inr (Or.inr (Or.inr ⟨_, _, hm, rfl, by omega⟩))
    | zero h => omega
    | infinity => exact Or.inr (Or.inl ⟨_, rfl⟩)

/-- **A root that is not zero has a square that is not zero.** -/
theorem sqrt_mul_sqrt_ne_zero (h : (x.sqrt == 0) = false) : (x.sqrt * x.sqrt == 0) = false := by
  rw [← Bool.not_eq_true, beq_zero_iff] at h ⊢
  rintro ⟨s, hs⟩
  rcases sqrt_cases x with hroot | ⟨t, hroot⟩ | ⟨t, -, hroot⟩ | ⟨m, e, hm, hroot, hsize⟩
  · rw [unpack_mul, hroot, UnpackedFloat.mul, unpack_pack_notANumber] at hs
    cases hs
  · rw [unpack_mul, hroot, UnpackedFloat.mul, unpack_pack_infinity] at hs
    cases hs
  · exact h ⟨t, hroot⟩
  · have hrounds := rounds_mul hroot hroot
    have hlog := (log2_mul hm hm).1
    rw [hs] at hrounds
    cases hrounds with
    | zero h => omega

theorem Sized.sqrt_ne_zero (h : Sized .positive low high x) :
    (x.sqrt == 0) = false := by
  obtain ⟨m, e, hm, hx, -, -⟩ := h
  rw [← Bool.not_eq_true, beq_zero_iff]
  rintro ⟨s, hs⟩
  obtain ⟨size, hsize, hrounds⟩ := rounds_sqrt hx
  rw [hs] at hrounds
  cases hrounds with
  | zero h => omega

theorem Sized.not_lt_zero (h : Sized .positive low high x) : ¬ x < 0 := by
  obtain ⟨m, e, hm, hx, -, -⟩ := h
  rw [not_lt_zero_iff, hx]
  exact .finite hm

theorem Sized.ne_zero (h : Sized s low high x) : (x == 0) = false := by
  obtain ⟨m, e, hm, hx, -, -⟩ := h
  rw [← Bool.not_eq_true, beq_zero_iff, hx]
  rintro ⟨s', hs⟩
  cases hs

theorem Sized.not_isInf (h : Sized s low high x) :
    x.isInf = false := by
  obtain ⟨m, e, hm, hx, -, -⟩ := h
  change UnpackedFloat.isInf x.toModel.unpack = false
  rw [hx]
  rfl

theorem Rounds.not_isInf (h : Rounds s size x.toModel.unpack) (hsize : size < 1023) :
    x.isInf = false := by
  change UnpackedFloat.isInf x.toModel.unpack = false
  generalize x.toModel.unpack = u at h
  cases h with
  | finite => rfl
  | zero => rfl
  | infinity h => omega

theorem rounds_normalize {n : Int} (hn : n ≠ 0) (e : Int) (s : Sign) :
    ∃ s', Rounds s' (n.natAbs.log2 + e)
      (Float.Model.pack (UnpackedFloat.normalize Format.binary64 n e s)).unpack := by
  rcases Int.lt_trichotomy n 0 with hlt | heq | hgt
  · have hcompare : compare n 0 = .lt := Int.compare_eq_lt.mpr hlt
    have habs : (-n).toNat = n.natAbs := by omega
    rw [UnpackedFloat.normalize, hcompare, habs]
    exact ⟨_, rounds_round _ (by omega) e⟩
  · exact absurd heq hn
  · have hcompare : compare n 0 = .gt := Int.compare_eq_gt.mpr hgt
    have habs : n.toNat = n.natAbs := by omega
    rw [UnpackedFloat.normalize, hcompare, habs]
    exact ⟨_, rounds_round _ (by omega) e⟩

def AtMostSized (high : Int) (x : Float) : Prop :=
  (∃ s, x.toModel.unpack = .zero s) ∨ ∃ s low, Sized s low high x

theorem Sized.zero_mul {s t : Sign} (hx : x.toModel.unpack = .zero s) (hy : Sized t low high y) :
    (x * y).toModel.unpack = .zero (s * t) := by
  obtain ⟨m, e, hm, hy, -, -⟩ := hy
  rw [unpack_mul, hx, hy, UnpackedFloat.mul, unpack_pack_zero]

theorem natAbs_apply_sub (s s' : Sign) (m n : Nat) :
    (s.apply m - s'.apply n).natAbs ≤ m + n := by
  cases s <;> cases s' <;> dsimp only [Sign.apply] <;> omega

theorem shiftLeft_lt_two_pow {m k : Nat} (hsize : (m.log2 : Int) + e + 1 ≤ k) (l : Int)
    (hl : l ≤ e) :
    m <<< (e - l).toNat < 2 ^ (k - l).toNat := by
  have hlt : m * 2 ^ (e - l).toNat < 2 ^ (m.log2 + 1) * 2 ^ (e - l).toNat :=
    Nat.mul_lt_mul_of_pos_right Nat.lt_log2_self (Nat.two_pow_pos _)
  rw [Nat.shiftLeft_eq]
  refine Nat.lt_of_lt_of_le hlt ?_
  rw [← Nat.pow_add]
  exact Nat.pow_le_pow_right Nat.two_pos (by omega)

theorem AtMostSized.sub_not_isInf {low : Int} (hx : AtMostSized 100 x) (hy : Sized s low 100 y) :
    (x - y).isInf = false := by
  have hsub : (x - y).toModel.unpack = (Float.Model.pack (UnpackedFloat.sub Format.binary64
      x.toModel.unpack y.toModel.unpack)).unpack := rfl
  obtain ⟨n, f, hn, hyn, -, hyhigh⟩ := hy
  rcases hx with ⟨t, hzero⟩ | ⟨t, low', m, e, hm, hxm, -, hxhigh⟩
  · have hunpack : (x - y).toModel.unpack = .finite (-s) n f hn := by
      rw [hsub, hzero, hyn, UnpackedFloat.sub, (packed_of_unpack hyn).1.unpack_pack,
        if_pos (by omega)]
    change UnpackedFloat.isInf (x - y).toModel.unpack = false
    rw [hunpack]
    rfl
  · rw [hxm, hyn, UnpackedFloat.sub] at hsub
    dsimp only [decreaseExponent] at hsub
    generalize hM : t.apply (m <<< (e - min e f).toNat : Nat) -
      s.apply (n <<< (f - min e f).toNat : Nat) = M at hsub
    by_cases hzero : M = 0
    · have hnone : UnpackedFloat.normalize Format.binary64 0 (min e f) .positive =
        .zero .positive := rfl
      rw [hzero, hnone, unpack_pack_zero] at hsub
      change UnpackedFloat.isInf (x - y).toModel.unpack = false
      rw [hsub]
      rfl
    · obtain ⟨s', hrounds⟩ := rounds_normalize hzero (min e f) .positive
      rw [← hsub] at hrounds
      refine hrounds.not_isInf ?_
      have hle : M.natAbs ≤ m <<< (e - min e f).toNat + n <<< (f - min e f).toNat :=
        hM ▸ natAbs_apply_sub _ _ _ _
      have hmlt := shiftLeft_lt_two_pow (k := 101) (e := e) (m := m) (by omega) (min e f) (by omega)
      have hnlt := shiftLeft_lt_two_pow (k := 101) (e := f) (m := n) (by omega) (min e f) (by omega)
      have hlog : M.natAbs.log2 < (101 - min e f).toNat + 1 := by
        rw [Nat.log2_lt (by omega), Nat.pow_succ]
        push_cast at hmlt hnlt
        omega
      omega

end Signs

end CodeAtlas
