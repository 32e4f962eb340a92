import CodeAtlas.Proofs.Number.Closeness
import CodeAtlas.Proofs.Number.Comparing

/-!
# Numbers by their values

Whole and real numbers are compared by their exact values, with the infinite ones at the ends, so
one order holds of all of them.

* **`Amount.atLeast_trans`**: amounts in order.
-/

namespace CodeAtlas

open Float.Model Float.Model.UnpackedFloat

/-! ## Real numbers -/

section Size

variable {m n : ℕ} {e f : ℤ}

theorem Packable.size_lt (hm : Packable m e) (hn : Packable n f) (h : e < f) :
    (m : ℚ) * 2 ^ e < n * 2 ^ f := by
  -- the larger exponent is not the least, so its mantissa has all 53 digits
  have hfull : 2 ^ 52 ≤ n := hn.full.resolve_right (by have := hm.least; omega)
  have hm' : (m : ℚ) < 2 ^ 53 := by exact_mod_cast hm.lt
  have hn' : (2 : ℚ) ^ 52 ≤ n := by exact_mod_cast hfull
  have hpow : (2 : ℚ) ^ (e + 1) ≤ 2 ^ f := zpow_le_zpow_right₀ one_le_two (by omega)
  calc (m : ℚ) * 2 ^ e < 2 ^ 53 * 2 ^ e := by gcongr
    _ = 2 ^ 52 * 2 ^ (e + 1) := by rw [zpow_add_one₀ two_ne_zero]; ring
    _ ≤ n * 2 ^ f := by gcongr

theorem Packable.size_le_iff (hm : Packable m e) (hn : Packable n f) :
    (m : ℚ) * 2 ^ e ≤ n * 2 ^ f ↔ e < f ∨ e = f ∧ m ≤ n := by
  rcases lt_trichotomy e f with h | rfl | h
  · simp [h, (hm.size_lt hn h).le]
  · rw [mul_le_mul_iff_of_pos_right (by positivity)]
    simp
  · have hlt := hn.size_lt hm h
    constructor
    · intro hle
      exact absurd hle (not_le.mpr hlt)
    · omega

end Size

/-- The value of a number, infinite or its signed size; none if undefined. -/
def valueOf : UnpackedFloat → Option (ℤ ×ₗ ℚ)
  | .notANumber => none
  | .infinity .positive => some (toLex (1, 0))
  | .finite .positive m e _ => some (toLex (0, m * 2 ^ e))
  | .zero _ => some (toLex (0, 0))
  | .finite .negative m e _ => some (toLex (0, -(m * 2 ^ e)))
  | .infinity .negative => some (toLex (-1, 0))

theorem size_pos {m : ℕ} (hm : 0 < m) (e : ℤ) : (0 : ℚ) < m * 2 ^ e := by positivity

/-- **Numbers in order of their places** are in order of their values. -/
theorem placeOf_le_iff {a b : UnpackedFloat}
    (ha : ∀ s m e hm, a = .finite s m e hm → Packable m e)
    (hb : ∀ s m e hm, b = .finite s m e hm → Packable m e) :
    (∃ k ∈ placeOf a, ∃ l ∈ placeOf b, k ≤ l) ↔ ∃ k ∈ valueOf a, ∃ l ∈ valueOf b, k ≤ l := by
  cases a with
  | notANumber => simp [placeOf, valueOf]
  | infinity s =>
    rcases s <;> rcases b with (_ | _) | _ | _ | ⟨_ | _, n, f, hn⟩ <;>
      simp [placeOf, valueOf, Prod.Lex.toLex_le_toLex]
  | zero s =>
    rcases b with (_ | _) | _ | _ | ⟨_ | _, n, f, hn⟩
    case finite.negative | finite.positive =>
      have hpos := size_pos hn f
      simp [placeOf, valueOf, Prod.Lex.toLex_le_toLex, hpos.le, not_le.mpr hpos]
    all_goals simp [placeOf, valueOf, Prod.Lex.toLex_le_toLex]
  | finite s m e hm =>
    have hpos := size_pos hm e
    have hpacked := ha s m e hm rfl
    rcases s <;> rcases b with (_ | _) | _ | _ | ⟨_ | _, n, f, hn⟩
    case negative.finite.negative | positive.finite.positive =>
      have hpacked' := hb _ n f hn rfl
      simp [placeOf, valueOf, Prod.Lex.toLex_le_toLex, hpacked.size_le_iff hpacked',
        hpacked'.size_le_iff hpacked, eq_comm]
    case negative.finite.positive =>
      have hle : -(m * 2 ^ e : ℚ) ≤ n * 2 ^ f := by linarith [size_pos hn f]
      simp [placeOf, valueOf, Prod.Lex.toLex_le_toLex, hle]
    case positive.finite.negative =>
      have hnot : ¬ (m * 2 ^ e : ℚ) ≤ -(n * 2 ^ f) := by linarith [size_pos hn f]
      simp [placeOf, valueOf, Prod.Lex.toLex_le_toLex, hnot]
    all_goals simp [placeOf, valueOf, Prod.Lex.toLex_le_toLex, hpos.le, not_le.mpr hpos]

theorem valueOf_neg (a : UnpackedFloat) :
    valueOf (UnpackedFloat.neg a) =
      (valueOf a).map fun v => toLex (-(ofLex v).1, -(ofLex v).2) := by
  rcases a with (_ | _) | _ | (_ | _) | ⟨_ | _, m, e, hm⟩ <;>
    simp [UnpackedFloat.neg, valueOf]

variable (n : ℤ) (b : Binary) (x : Float)

theorem packable_of_unpack :
    ∀ s m e hm, x.toModel.unpack = .finite s m e hm → Packable m e :=
  fun _ _ _ _ h => (packed_of_unpack h).1

theorem valueOf_ofNat {n : ℕ} (hle : n ≤ exactLimit) :
    valueOf (Float.ofNat n).toModel.unpack = some (toLex (0, (n : ℚ))) := by
  rcases Nat.eq_zero_or_pos n with rfl | hn
  · rfl
  rcases Nat.eq_or_lt_of_le hle with rfl | hlt
  · have hunpack : (Float.ofNat exactLimit).toModel.unpack =
        .finite .positive (2 ^ 52) 1 (by decide) := rfl
    have hlimit : (exactLimit : ℚ) = 2 ^ 53 := by norm_num [exactLimit]
    rw [hunpack, hlimit, valueOf]
    norm_num
  · rw [← nearestWhole_natCast hle, unpack_nearestWhole hn hlt]
    exact congrArg (fun v : ℚ => some (toLex ((0 : ℤ), v))) (wholeForm_size hn hlt)

theorem valueOf_ofInt {n : ℤ} (h : n.natAbs ≤ exactLimit) :
    valueOf (Float.ofInt n).toModel.unpack = some (toLex (0, (n : ℚ))) := by
  cases n with
  | ofNat n => exact valueOf_ofNat h
  | negSucc n =>
    have hle : n + 1 ≤ exactLimit := h
    change valueOf (-(Float.ofNat (n + 1))).toModel.unpack = _
    rw [unpack_neg, valueOf_neg, valueOf_ofNat hle]
    simp [Int.cast_negSucc]

/-! ## Whole numbers -/

def Binary.value (b : Binary) : ℚ := if b.negative then -b.size else b.size

theorem Binary.ratio_size : ((b.ratio 0).1 : ℚ) = b.size * (b.ratio 0).2 := by
  have hnum : ((b.ratio 0).1 : ℚ) = b.mantissa * 2 ^ b.exponent.toNat := by
    simp [ratio]
  have hden : ((b.ratio 0).2 : ℚ) = 2 ^ (-b.exponent).toNat := by
    simp [ratio]
  rw [hnum, hden, size, mul_assoc, zpow_mul_pow_toNat two_ne_zero]

theorem Binary.signedInt_ratio :
    (signedInt b.negative (b.ratio 0).1 : ℚ) = b.value * (b.ratio 0).2 := by
  unfold signedInt value
  split_ifs
  · rw [Int.cast_neg, Int.cast_natCast, b.ratio_size, neg_mul]
  · rw [Int.cast_natCast, b.ratio_size]

theorem Binary.ratio_pos : (0 : ℚ) < (b.ratio 0).2 := by
  simp [ratio]

theorem valueOf_of_ofFloat? {x : Float} {b : Binary} (h : Binary.ofFloat? x = some b) :
    valueOf x.toModel.unpack = some (toLex (0, b.value)) := by
  obtain ⟨s, m, e, hm, hx, hb⟩ | ⟨s, hx, hb⟩ | ⟨-, hb⟩ := Binary.ofFloat?_cases x
  · obtain rfl := Option.some.inj (h.symm.trans hb)
    rw [hx]
    cases s <;> rfl
  · obtain rfl := Option.some.inj (h.symm.trans hb)
    rw [hx]
    cases s <;> simp [valueOf, Binary.value, Binary.size]
  · simp [h] at hb

theorem cast_mul_ratio :
    (n * (b.ratio 0).2 ≤ signedInt b.negative (b.ratio 0).1 ↔ (n : ℚ) ≤ b.value) ∧
      (signedInt b.negative (b.ratio 0).1 ≤ n * (b.ratio 0).2 ↔ b.value ≤ n) := by
  have hcast : ((n * (b.ratio 0).2 : ℤ) : ℚ) = n * (b.ratio 0).2 := by push_cast; rfl
  rw [← Int.cast_le (R := ℚ), ← Int.cast_le (R := ℚ), b.signedInt_ratio, hcast]
  exact ⟨mul_le_mul_iff_of_pos_right b.ratio_pos, mul_le_mul_iff_of_pos_right b.ratio_pos⟩

/-- **A whole number is compared** with the value of a real one. -/
theorem compareWhole_iff :
    ((compareWhole n x).any (·.isLE) = true ↔
      ∃ v ∈ valueOf x.toModel.unpack, toLex (0, (n : ℚ)) ≤ v) ∧
    ((compareWhole n x).any (·.isGE) = true ↔
      ∃ v ∈ valueOf x.toModel.unpack, v ≤ toLex (0, (n : ℚ))) := by
  unfold compareWhole
  cases hb : Binary.ofFloat? x with
  | some b =>
    obtain ⟨hle, hge⟩ := cast_mul_ratio n b
    simp [valueOf_of_ofFloat? hb, Prod.Lex.toLex_le_toLex, Int.isLE_compare, Int.isGE_compare, hle,
      hge]
  | none =>
    have hnan : x.isNaN = UnpackedFloat.isNaN x.toModel.unpack := rfl
    have hneg : x < 0 ↔ x.toModel.unpack.compare (.zero .positive) = some .lt := by
      rw [← decide_eq_true_iff (p := x < 0), decide_lt_eq, beq_iff_eq]
      rfl
    obtain ⟨_, _, _, _, -, hb'⟩ | ⟨_, -, hb'⟩ | ⟨hx | ⟨s, hx⟩, -⟩ := Binary.ofFloat?_cases x
    · simp [hb] at hb'
    · simp [hb] at hb'
    · rw [hx] at hnan ⊢
      simp only [hnan, UnpackedFloat.isNaN]
      simp [valueOf]
    · rw [hx] at hneg hnan ⊢
      simp only [hnan, hneg, UnpackedFloat.isNaN]
      cases s <;> simp [valueOf, UnpackedFloat.compare, Prod.Lex.toLex_le_toLex]

namespace Computed

def value? : Computed → Option (ℤ ×ₗ ℚ)
  | .whole n => some (toLex (0, (n : ℚ)))
  | .real x => valueOf x.toModel.unpack
  | .broken _ => none

theorem real_le_real_iff {x y : Float} :
    real x ≤ real y ↔ ∃ k ∈ value? (real x), ∃ l ∈ value? (real y), k ≤ l :=
  real_le_iff.trans (placeOf_le_iff (packable_of_unpack x) (packable_of_unpack y))

theorem any_isGE_eq (o : Option Ordering) :
    (o == some .gt || o == some .eq) = o.any (·.isGE) := by
  cases o with
  | none => rfl
  | some o => cases o <;> rfl

theorem whole_le_real_iff {m : ℤ} {y : Float} :
    whole m ≤ real y ↔ ∃ k ∈ value? (whole m), ∃ l ∈ value? (real y), k ≤ l := by
  by_cases hm : m.natAbs ≤ exactLimit
  · have hreal : whole m ≤ real y ↔ real (Float.ofInt m) ≤ real y := by
      change (below _ _ || same _ _) = true ↔ (below _ _ || same _ _) = true
      simp only [below, same, if_pos hm]
    rw [hreal, real_le_real_iff]
    simp only [value?, valueOf_ofInt hm]
  · have hle : whole m ≤ real y ↔ (compareWhole m y).any (·.isLE) = true := by
      change (below _ _ || same _ _) = true ↔ _
      simp only [below, same, if_neg hm, any_isLE_eq]
    rw [hle, (compareWhole_iff m y).1]
    simp [value?]

theorem real_le_whole_iff {x : Float} {n : ℤ} :
    real x ≤ whole n ↔ ∃ k ∈ value? (real x), ∃ l ∈ value? (whole n), k ≤ l := by
  by_cases hn : n.natAbs ≤ exactLimit
  · have hreal : real x ≤ whole n ↔ real x ≤ real (Float.ofInt n) := by
      change (below _ _ || same _ _) = true ↔ (below _ _ || same _ _) = true
      have hsame : (Float.ofInt n == x) = (x == Float.ofInt n) := by
        rw [beq_eq, beq_eq, compareReal_swap]
        exact map_swap_eq _ _
      simp only [below, same, if_pos hn, hsame]
    rw [hreal, real_le_real_iff]
    simp only [value?, valueOf_ofInt hn]
  · have hge : real x ≤ whole n ↔ (compareWhole n x).any (·.isGE) = true := by
      change (below _ _ || same _ _) = true ↔ _
      simp only [below, same, if_neg hn, any_isGE_eq]
    rw [hge, (compareWhole_iff n x).2]
    simp [value?]

/-- A result is at most another if both are numbers and their values are so. -/
theorem le_iff_value (a b : Computed) : a ≤ b ↔ ∃ k ∈ a.value?, ∃ l ∈ b.value?, k ≤ l := by
  rcases a with m | x | fault <;> rcases b with n | y | fault'
  case whole.whole =>
    have hle : whole m ≤ whole n ↔ m ≤ n := by
      change (decide (m < n) || m == n) = true ↔ m ≤ n
      simp [le_iff_lt_or_eq]
    simp [hle, value?, Prod.Lex.toLex_le_toLex]
  case real.real => exact real_le_real_iff
  case whole.real => exact whole_le_real_iff
  case real.whole => exact real_le_whole_iff
  -- a fault is not in order with anything
  all_goals
    refine iff_of_false (fun h => Bool.noConfusion h) ?_
    simp [value?]

end Computed

/-- **Amounts in order.** -/
theorem Amount.atLeast_trans {a b c : Amount} (hab : a.atLeast b = true)
    (hbc : b.atLeast c = true) : a.atLeast c = true := by
  obtain ⟨k, hk, l, hl, hkl⟩ := (Computed.le_iff_value _ _).mp hbc
  obtain ⟨l', hl', m, hm, hlm⟩ := (Computed.le_iff_value _ _).mp hab
  obtain rfl := Option.mem_unique hl hl'
  exact (Computed.le_iff_value _ _).mpr ⟨k, hk, m, hm, hkl.trans hlm⟩

end CodeAtlas
