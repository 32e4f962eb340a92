import CodeAtlas.Proofs.Number.Rounding

/-!
# Sums of ones

A natural number below `2 ^ 53` is a real number itself: its mantissa loses nothing when it is
rounded, packed and unpacked. At `2 ^ 53` the count stands still.

* **`foldl_add_one`**: a sum of ones.
-/

namespace CodeAtlas

open Float.Model Float.Model.UnpackedFloat

def wholeForm (n : Nat) (hn : 0 < n) : UnpackedFloat :=
  .finite .positive (n * 2 ^ (52 - n.log2)) ((n.log2 : Int) - 52)
    (Nat.mul_pos hn (Nat.two_pow_pos _))

/-! ## Rounding -/

section Rounding

variable {n k : Nat}

theorem shiftRight_exact (m k : Nat) :
    (⟨m * 2 ^ k, false, false⟩ : ExtendedMantissa) >>> k = ⟨m, false, false⟩ := by
  change Nat.repeat ExtendedMantissa.shiftRightOne k _ = _
  induction k generalizing m with
  | zero => simp [Nat.repeat]
  | succ k ih =>
    have hdouble : m * 2 ^ (k + 1) = 2 * m * 2 ^ k := by rw [Nat.pow_succ]; ac_rfl
    rw [Nat.repeat, hdouble, ih]
    simp [ExtendedMantissa.shiftRightOne]

theorem log2_le_of_lt (hn : 0 < n) (hlt : n < 2 ^ 53) : n.log2 ≤ 52 :=
  Nat.le_of_lt_succ ((Nat.log2_lt (Nat.ne_of_gt hn)).mpr hlt)

theorem targetExponent_whole (hn : 0 < n) (hlt : n < 2 ^ 53) (k : Nat) :
    Format.binary64.targetExponent (totalExponent (n * 2 ^ k) (-(k : Int))) =
      (n.log2 : Int) - 52 := by
  have hlog := log2_le_of_lt hn hlt
  rw [targetExponent_binary64, totalExponent, log2_mul_two_pow hn]
  omega

theorem shiftToTargetExponent_whole (hn : 0 < n) (hlt : n < 2 ^ 53) (hk : 52 - n.log2 ≤ k) :
    shiftToTargetExponent Format.binary64 (n * 2 ^ k) (-(k : Int)) .exact =
      (⟨n * 2 ^ (52 - n.log2), false, false⟩, (n.log2 : Int) - 52) := by
  have hlog := log2_le_of_lt hn hlt
  have hshift : ((n.log2 : Int) - 52 - -(k : Int)).toNat = k - (52 - n.log2) := by omega
  have hmantissa : n * 2 ^ k = n * 2 ^ (52 - n.log2) * 2 ^ (k - (52 - n.log2)) := by
    rw [Nat.mul_assoc, ← Nat.pow_add, Nat.add_sub_cancel' hk]
  rw [shiftToTargetExponent, targetExponent_whole hn hlt, shiftToExponent, hshift]
  refine Prod.ext ?_ ?_
  · dsimp only [ExtendedMantissa.ofMantissaAndAccuracy]
    rw [hmantissa, shiftRight_exact]
  · dsimp only
    omega

theorem roundWithAccuracy_whole (hn : 0 < n) (hlt : n < 2 ^ 53) (hk : 52 - n.log2 ≤ k) :
    roundWithAccuracy Format.binary64 .positive (n * 2 ^ k) (-(k : Int)) .exact =
      wholeForm n hn := by
  have hlog := log2_le_of_lt hn hlt
  have hagain : (n.log2 : Int) - 52 = -((52 - n.log2 : Nat) : Int) := by omega
  have hrounded : (⟨n * 2 ^ (52 - n.log2), false, false⟩ : ExtendedMantissa).roundedMantissa =
      n * 2 ^ (52 - n.log2) := rfl
  have hpos : n * 2 ^ (52 - n.log2) ≠ 0 := Nat.ne_of_gt (Nat.mul_pos hn (Nat.two_pow_pos _))
  rw [roundWithAccuracy, shiftToTargetExponent_whole hn hlt hk]
  dsimp only
  rw [hrounded, hagain, shiftToTargetExponent_whole hn hlt (Nat.le_refl _)]
  dsimp only
  rw [dif_neg hpos]
  rfl

theorem round_whole (hn : 0 < n) (hlt : n < 2 ^ 53) (k : Nat) :
    UnpackedFloat.round Format.binary64 .positive (n * 2 ^ k) (-(k : Int)) = wholeForm n hn := by
  have hlog := log2_le_of_lt hn hlt
  have hshift : (-(k : Int) - ((n.log2 : Int) - 52)).toNat = 52 - n.log2 - k := by omega
  have hexponent : -(k : Int) - ((52 - n.log2 - k : Nat) : Int) =
      -((k + (52 - n.log2 - k) : Nat) : Int) := by omega
  rw [UnpackedFloat.round, targetExponent_whole hn hlt, decreaseExponent, hshift]
  dsimp only
  rw [Nat.shiftLeft_eq, Nat.mul_assoc, ← Nat.pow_add, hexponent]
  exact roundWithAccuracy_whole hn hlt (by omega)

theorem normalize_whole (hn : 0 < n) (hlt : n < 2 ^ 53) (k : Nat) :
    UnpackedFloat.normalize Format.binary64 ((n * 2 ^ k : Nat) : Int) (-(k : Int)) .positive =
      wholeForm n hn := by
  have hpos : 0 < n * 2 ^ k := Nat.mul_pos hn (Nat.two_pow_pos k)
  have hcompare : compare ((n * 2 ^ k : Nat) : Int) 0 = .gt :=
    Int.compare_eq_gt.mpr (by omega)
  rw [UnpackedFloat.normalize, hcompare]
  exact round_whole hn hlt k

end Rounding

/-! ## Packing -/

theorem unpack_pack_whole {n : Nat} (hn : 0 < n) (hlt : n < 2 ^ 53) :
    (Float.Model.pack (wholeForm n hn)).unpack = wholeForm n hn := by
  have hlog := log2_le_of_lt hn hlt
  have hpos : 0 < n * 2 ^ (52 - n.log2) := Nat.mul_pos hn (Nat.two_pow_pos _)
  have hdigits : (n * 2 ^ (52 - n.log2)).log2 = 52 := by
    rw [log2_mul_two_pow hn]
    omega
  obtain ⟨hle, hlt'⟩ := (Nat.log2_eq_iff (Nat.ne_of_gt hpos)).mp hdigits
  have hpackable : Packable (n * 2 ^ (52 - n.log2)) ((n.log2 : Int) - 52) :=
    ⟨hpos, hlt', by omega, Or.inl hle⟩
  rw [wholeForm, hpackable.unpack_pack, if_pos (by omega)]

/-! ## Natural numbers as real numbers -/

section Whole

variable {n : Nat}

theorem unpack_one : (Float.Model.ofBits 0x3FF0000000000000).unpack = wholeForm 1 Nat.one_pos := rfl

theorem unpack_toFloat (hn : 0 < n) (hlt : n < 2 ^ 53) :
    n.toUInt64.toFloat.toModel.unpack = wholeForm n hn := by
  have hnat : n.toUInt64.toNat = n := Nat.mod_eq_of_lt (by omega)
  have hnormal := normalize_whole hn hlt 0
  rw [Nat.pow_zero, Nat.mul_one] at hnormal
  change (Float.Model.pack (UnpackedFloat.ofNat Format.binary64 n.toUInt64.toNat)).unpack = _
  rw [hnat, UnpackedFloat.ofNat, UnpackedFloat.ofInt]
  exact (congrArg (fun x => (Float.Model.pack x).unpack) hnormal).trans (unpack_pack_whole hn hlt)

theorem mul_one_whole (hn : 0 < n) (hlt : n < 2 ^ 53) :
    UnpackedFloat.mul Format.binary64 (wholeForm n hn) (wholeForm 1 Nat.one_pos) =
      wholeForm n hn := by
  have hlog := log2_le_of_lt hn hlt
  have hone : Nat.log2 1 = 0 := rfl
  have hmantissa : n * 2 ^ (52 - n.log2) * (1 * 2 ^ (52 - Nat.log2 1)) =
      n * 2 ^ (104 - n.log2) := by
    rw [hone, Nat.one_mul, Nat.mul_assoc, ← Nat.pow_add]
    congr 2
    omega
  have hexponent : (n.log2 : Int) - 52 + ((Nat.log2 1 : Nat) - 52) =
      -((104 - n.log2 : Nat) : Int) := by
    rw [hone]
    omega
  have hround := roundWithAccuracy_whole (k := 104 - n.log2) hn hlt (by omega)
  rw [← hmantissa, ← hexponent] at hround
  exact hround

theorem add_one_whole (hn : 0 < n) (hlt : n + 1 < 2 ^ 53) :
    UnpackedFloat.add Format.binary64 (wholeForm n hn) (wholeForm 1 Nat.one_pos) =
      wholeForm (n + 1) (Nat.succ_pos n) := by
  have hlog := log2_le_of_lt hn (by omega)
  have hmin : min ((n.log2 : Int) - 52) ((Nat.log2 1 : Nat) - 52) = -(52 : Nat) := by
    have hone : Nat.log2 1 = 0 := rfl
    rw [hone]
    omega
  have hshift : ((n.log2 : Int) - 52 - -(52 : Nat)).toNat = n.log2 := by omega
  have hleft : (n * 2 ^ (52 - n.log2)) <<< n.log2 = n * 2 ^ 52 := by
    rw [Nat.shiftLeft_eq, Nat.mul_assoc, ← Nat.pow_add, Nat.sub_add_cancel hlog]
  have hsum := normalize_whole (Nat.succ_pos n) hlt 52
  rw [Nat.succ_mul] at hsum
  rw [wholeForm, wholeForm, UnpackedFloat.add]
  dsimp only [decreaseExponent]
  rw [hmin, hshift, hleft]
  exact hsum

theorem toModel_ofNat (hn : 0 < n) (hlt : n < 2 ^ 53) :
    (Float.ofNat n).toModel = Float.Model.pack (wholeForm n hn) := by
  have hfast : Float.ofNat n = n.toUInt64.toFloat * Float.ofBits 0x3FF0000000000000 :=
    dif_pos ⟨hlt, Nat.zero_le 22⟩
  have hmul : (Float.ofNat n).toModel = Float.Model.pack (UnpackedFloat.mul Format.binary64
      n.toUInt64.toFloat.toModel.unpack (Float.Model.ofBits 0x3FF0000000000000).unpack) := by
    rw [hfast]
    rfl
  rw [hmul, unpack_toFloat hn hlt, unpack_one, mul_one_whole hn hlt]

theorem nearestWhole_natCast (hle : n ≤ exactLimit) : nearestWhole n = Float.ofNat n :=
  if_pos hle

theorem nearestWhole_add_one (hn : 0 < n) (hlt : n < exactLimit) :
    nearestWhole n + 1 = nearestWhole (n + 1 : Nat) := by
  have hlimit : exactLimit = 2 ^ 53 := rfl
  by_cases hlast : n + 1 = 2 ^ 53
  · obtain rfl : n = 2 ^ 53 - 1 := by omega
    decide +kernel
  have hn' : n < 2 ^ 53 := by omega
  have hlt' : n + 1 < 2 ^ 53 := by omega
  have hmodel : (Float.ofNat n + 1).toModel = (Float.ofNat (n + 1)).toModel := by
    change Float.Model.pack (UnpackedFloat.add Format.binary64 (Float.ofNat n).toModel.unpack
      (Float.ofNat 1).toModel.unpack) = _
    rw [toModel_ofNat hn hn', toModel_ofNat Nat.one_pos (by decide),
      unpack_pack_whole hn hn', unpack_pack_whole Nat.one_pos (by decide),
      add_one_whole hn hlt', toModel_ofNat (Nat.succ_pos n) hlt']
  rw [nearestWhole_natCast (Nat.le_of_lt hlt), nearestWhole_natCast hlt]
  exact congrArg Float.ofModel hmodel

theorem nearestWhole_exactLimit_add_one :
    nearestWhole exactLimit + 1 = nearestWhole exactLimit := by decide +kernel

/-- **A sum of ones** is their number, up to the limit. -/
theorem foldl_add_one (n : Nat) :
    (List.replicate n (1 : Float)).foldl (· + ·) 1 =
      nearestWhole (min (n + 1) exactLimit : Nat) := by
  induction n with
  | zero => decide +kernel
  | succ n ih =>
    rw [List.replicate_succ', List.foldl_append, ih, List.foldl_cons, List.foldl_nil]
    by_cases hlt : n + 1 < exactLimit
    · rw [Nat.min_eq_left (Nat.le_of_lt hlt), nearestWhole_add_one (Nat.succ_pos n) hlt,
        Nat.min_eq_left hlt]
    · have hle : exactLimit ≤ n + 1 := Nat.le_of_not_lt hlt
      rw [Nat.min_eq_right hle, nearestWhole_exactLimit_add_one,
        Nat.min_eq_right (Nat.le_succ_of_le hle)]

end Whole

end CodeAtlas
