import CodeAtlas.Number.Computed
import CodeAtlas.Proofs.Number.Rational
import CodeAtlas.Proofs.Number.WholeSum

/-!
# Calculations without faults

A calculation with a real number is real, and so is a quotient by a number that is not zero, as long
as whole numbers do not become infinite. Roots are taken of sums of squares.

* **`nearestWhole_not_isInf`**: whole numbers and quotients that become real.
-/

namespace CodeAtlas

open Float.Model Float.Model.UnpackedFloat

/-! ## Whole numbers as real ones -/

section Nearest

theorem isInf_ofBits {b : Nat} (h : b < infiniteBits) :
    (Float.ofBits (UInt64.ofNat b)).isInf = false := by
  have hlimit : infiniteBits = 2047 * 2 ^ 52 := rfl
  have hnat : (UInt64.ofNat b).toBitVec.toNat = b := by
    rw [UInt64.toNat_toBitVec, UInt64.toNat_ofNat']
    omega
  have hexponent : (@unpackExponent Format.binary64 (UInt64.ofNat b).toBitVec).toNat =
      b >>> 52 % 2 ^ 11 := by
    rw [unpackExponent, BitVec.toNat_cast, BitVec.extractLsb_toNat, hnat]
    rfl
  have hfinite : @unpackExponent Format.binary64 (UInt64.ofNat b).toBitVec ≠ -1#11 := by
    intro hall
    rw [hall, Nat.shiftRight_eq_div_pow] at hexponent
    change 2047 = b / 2 ^ 52 % 2 ^ 11 at hexponent
    omega
  change UnpackedFloat.isInf (Float.Model.pack
    (UnpackedFloat.unpack Format.binary64 (UInt64.ofNat b).toBitVec)).unpack = false
  cases hu : UnpackedFloat.unpack Format.binary64 (UInt64.ofNat b).toBitVec with
  | notANumber => rfl
  | zero s =>
    rw [unpack_pack_zero]
    rfl
  | finite s m e hm =>
    rw [(packed_of_unpack hu).1.unpack_pack, if_pos (packed_of_unpack hu).2]
    rfl
  | infinity s =>
    unfold UnpackedFloat.unpack at hu
    dsimp only at hu
    rw [if_neg hfinite] at hu
    split at hu
    · split at hu <;> cases hu
    · cases hu

theorem leadingBit_bounds (num den : Nat) :
    (num.log2 : Int) - den.log2 - 1 ≤ leadingBit num den ∧
      leadingBit num den ≤ (num.log2 : Int) - den.log2 := by
  unfold leadingBit
  dsimp only
  split_ifs <;> omega

variable {num den : Nat} {n : Nat}

theorem nearestBits_lt (hden : 0 < den) (hnum : num < 2 ^ 200) :
    nearestBits num den < infiniteBits := by
  obtain ⟨hlow, hhigh⟩ := leadingBit_bounds num den
  have hlog : num.log2 < 200 := by
    by_cases hzero : num = 0
    · rw [hzero]
      decide
    · exact (Nat.log2_lt hzero).mpr hnum
  unfold nearestBits
  dsimp only
  generalize hunit : max (leadingBit num den - 52) (-1074) = unit
  have hsize : roundDiv (num * Nat.pow 2 (-unit).toNat) (den * Nat.pow 2 unit.toNat) ≤ 2 ^ 54 := by
    refine (roundDiv_le _ _).trans (Nat.succ_le_of_lt (Nat.div_lt_of_lt_mul ?_))
    calc num * Nat.pow 2 (-unit).toNat
        < 2 ^ (num.log2 + 1) * Nat.pow 2 (-unit).toNat :=
          Nat.mul_lt_mul_of_pos_right Nat.lt_log2_self (Nat.two_pow_pos _)
      _ = 2 ^ (num.log2 + 1 + (-unit).toNat) := (Nat.pow_add _ _ _).symm
      _ ≤ 2 ^ (den.log2 + unit.toNat + 54) := Nat.pow_le_pow_right Nat.two_pos (by omega)
      _ = 2 ^ den.log2 * Nat.pow 2 unit.toNat * 2 ^ 54 := by rw [Nat.pow_add, Nat.pow_add]; rfl
      _ ≤ den * Nat.pow 2 unit.toNat * 2 ^ 54 := Nat.mul_le_mul_right _
          (Nat.mul_le_mul_right _ (Nat.log2_self_le (Nat.ne_of_gt hden)))
  have htwo : Nat.pow 2 52 = 2 ^ 52 := rfl
  have hlimit : infiniteBits = 2047 * 2 ^ 52 := rfl
  refine lt_of_le_of_lt (Nat.min_le_left _ _) ?_
  rw [htwo, hlimit]
  have hunit' : (unit + 1074).toNat ≤ 1300 := by omega
  omega

theorem nearestQuotient_not_isInf (hden : 0 < den) (hnum : num < 2 ^ 200) :
    (nearestQuotient num den).isInf = false := by
  unfold nearestQuotient
  split_ifs
  · rfl
  · exact isInf_ofBits (nearestBits_lt hden hnum)

theorem isInf_neg (x : Float) : (-x).isInf = x.isInf := by
  change UnpackedFloat.isInf (-x).toModel.unpack = UnpackedFloat.isInf x.toModel.unpack
  rw [unpack_neg]
  cases x.toModel.unpack <;> rfl

theorem sized_nearestWhole (hn : 0 < n) (hlt : n < exactLimit) :
    Sized .positive n.log2 n.log2 (nearestWhole n) := by
  have hlimit : exactLimit = 2 ^ 53 := rfl
  have hlog := log2_le_of_lt hn hlt
  refine ⟨n * 2 ^ (52 - n.log2), (n.log2 : Int) - 52, Nat.mul_pos hn (Nat.two_pow_pos _), ?_, ?_⟩
  · rw [nearestWhole_natCast (Nat.le_of_lt hlt), toModel_ofNat hn hlt, unpack_pack_whole hn hlt]
    rfl
  · rw [log2_mul_two_pow hn]
    omega

theorem isInf_ofNat (hle : n ≤ exactLimit) : (Float.ofNat n).isInf = false := by
  rcases Nat.eq_zero_or_pos n with rfl | hn
  · rfl
  rcases Nat.eq_or_lt_of_le hle with rfl | hlt
  · decide +kernel
  · rw [← nearestWhole_natCast hle]
    exact (sized_nearestWhole hn hlt).not_isInf

/-- **A whole number that is not too large becomes a real one.** -/
theorem nearestWhole_not_isInf {n : Int} (h : n.natAbs < 2 ^ 200) :
    (nearestWhole n).isInf = false := by
  unfold nearestWhole
  split_ifs with hle
  · cases n with
    | ofNat n => exact isInf_ofNat hle
    | negSucc n => exact (isInf_neg _).trans (isInf_ofNat hle)
  · have hquotient := nearestQuotient_not_isInf Nat.one_pos h
    unfold signed
    split_ifs
    · rw [isInf_neg, hquotient]
    · exact hquotient

theorem not_nearestWhole_lt_zero (hlt : n < exactLimit) : ¬ nearestWhole n < 0 := by
  rcases Nat.eq_zero_or_pos n with rfl | hn
  · decide +kernel
  · exact (sized_nearestWhole hn hlt).not_lt_zero

end Nearest

theorem Amount.computed_cases (a : Amount) :
    (∃ n, a.whole? = some n ∧ a.computed = .whole n) ∨ ∃ x, a.computed = .real x := by
  cases a with
  | whole n => exact Or.inl ⟨n, rfl, rfl⟩
  | real x => exact Or.inr ⟨x, rfl⟩
  | flag b => exact Or.inl ⟨_, rfl, rfl⟩

namespace Computed

/-! ## Whole and real numbers -/

def IsReal (c : Computed) : Prop := ∃ x, c = .real x

/-- A real number, or a whole one of at most the given size. -/
inductive Within (k : Nat) : Computed → Prop
  | real (x : Float) : Within k (.real x)
  | whole {n : Int} (h : n.natAbs ≤ k) : Within k (.whole n)

/-- A real number, or a whole one that becomes a real one. -/
def Tame (c : Computed) : Prop := Within (2 ^ 200 - 1) c

section Tame

variable {a b c : Computed} {j k : Nat}

theorem IsReal.within (h : IsReal a) : Within k a := by
  obtain ⟨x, rfl⟩ := h
  exact .real x

theorem IsReal.tame (h : IsReal a) : Tame a := h.within

theorem Within.mono (h : Within j a) (hle : j ≤ k) : Within k a := by
  cases h with
  | real x => exact .real x
  | whole h => exact .whole (h.trans hle)

theorem asReal_eq {n : Int} (h : n.natAbs ≤ 2 ^ 200 - 1) (f : Float → Computed) :
    asReal f n = f (nearestWhole n) := by
  unfold asReal
  dsimp only
  rw [nearestWhole_not_isInf (by omega)]
  exact if_neg Bool.false_ne_true

/-- A total operation gives a real number if one of two is real. -/
theorem Tame.combine {whole : Int → Int → Computed} (real : Float → Float → Float) (ha : Tame a)
    (hb : Tame b) (h : IsReal a ∨ IsReal b) :
    IsReal (combine whole (fun x y => .real (real x y)) a b) := by
  cases ha with
  | real x =>
    cases hb with
    | real y => exact ⟨real x y, rfl⟩
    | @whole n hn => exact ⟨real x (nearestWhole n), asReal_eq hn fun y => .real (real x y)⟩
  | @whole m hm =>
    cases hb with
    | real y => exact ⟨real (nearestWhole m) y, asReal_eq hm fun x => .real (real x y)⟩
    | whole hn =>
      rcases h with ⟨x, hx⟩ | ⟨x, hx⟩ <;> cases hx

theorem Tame.add (ha : Tame a) (hb : Tame b) (h : IsReal a ∨ IsReal b) : IsReal (a + b) :=
  ha.combine (· + ·) hb h

theorem Tame.sub (ha : Tame a) (hb : Tame b) (h : IsReal a ∨ IsReal b) : IsReal (a - b) :=
  ha.combine (· - ·) hb h

theorem Tame.mul (ha : Tame a) (hb : Tame b) (h : IsReal a ∨ IsReal b) : IsReal (a * b) :=
  ha.combine (· * ·) hb h

theorem Within.sub (ha : Within j a) (hb : Within k b) (hj : j < 2 ^ 200) (hk : k < 2 ^ 200) :
    Within (j + k) (a - b) := by
  cases ha with
  | real x => exact (Tame.sub (.real x) (hb.mono (by omega)) (Or.inl ⟨x, rfl⟩)).within
  | whole hm =>
    cases hb with
    | real y => exact (Tame.sub (.whole (by omega)) (.real y) (Or.inr ⟨y, rfl⟩)).within
    | whole hn => exact .whole (by omega)

theorem isReal_wholeQuotient {m n : Int} (hm : m.natAbs < 2 ^ 200) (hn : n ≠ 0) :
    IsReal (wholeQuotient m n) := by
  unfold wholeQuotient
  rw [if_neg hn]
  split_ifs with hsmall
  · exact ⟨_, rfl⟩
  · dsimp only
    rw [nearestQuotient_not_isInf (by omega) hm, if_neg Bool.false_ne_true]
    exact ⟨_, rfl⟩

variable {x : Float} {n : Nat}

theorem isReal_whole_div_nat {m : Int} (hm : m.natAbs < 2 ^ 200) (hn : 0 < n) :
    IsReal (.whole m / Arith.nat n) := by
  refine isReal_wholeQuotient hm ?_
  have hcast : Int.ofNat n = n := rfl
  omega

theorem isReal_ratio {m n : Int} (hm : m.natAbs < 2 ^ 200) (hn : n ≠ 0) :
    IsReal (Arith.ratio m n) :=
  isReal_wholeQuotient hm hn

inductive Divisor : Computed → Prop
  | real {x : Float} (h : (x == 0) = false) : Divisor (.real x)
  | whole {n : Nat} (hn : 0 < n) (hlt : n < exactLimit) : Divisor (.whole n)

theorem realQuotient_eq (x : Float) {y : Float} (hy : (y == 0) = false) :
    (if y == 0 then .broken .divisionByZero else .real (x / y) : Computed) = .real (x / y) := by
  rw [hy]
  exact if_neg Bool.false_ne_true

theorem nat_mul_real (hn : n < 2 ^ 200) (y : Float) :
    Arith.nat n * .real y = (.real (nearestWhole n * y) : Computed) :=
  asReal_eq (n := n) (by omega) fun x => .real (x * y)

theorem real_div_nat (x : Float) (hn : 0 < n) (hlt : n < exactLimit) :
    .real x / Arith.nat n = (.real (x / nearestWhole n) : Computed) := by
  have hlimit : exactLimit = 2 ^ 53 := rfl
  change asReal (fun y => if y == 0 then .broken .divisionByZero else .real (x / y)) n = _
  rw [asReal_eq (by omega), realQuotient_eq x (sized_nearestWhole hn hlt).ne_zero]

theorem Tame.div (ha : Tame a) (hb : Divisor b) : IsReal (a / b) := by
  cases ha with
  | real x =>
    cases hb with
    | @real y hy => exact ⟨x / y, realQuotient_eq x hy⟩
    | @whole n hn hlt => exact ⟨_, real_div_nat x hn hlt⟩
  | @whole m hm =>
    cases hb with
    | @real y hy =>
      change IsReal (asReal (fun x => if y == 0 then .broken .divisionByZero else .real (x / y)) m)
      rw [asReal_eq hm, realQuotient_eq _ hy]
      exact ⟨_, rfl⟩
    | whole hn hlt => exact isReal_wholeQuotient (by omega) (by omega)

theorem Divisor.tame (h : Divisor a) : Tame a := by
  cases h with
  | real => exact .real _
  | whole hn hlt =>
    have hlimit : exactLimit = 2 ^ 53 := rfl
    exact .whole (by omega)

/-- A number that is not below zero and has a root. -/
inductive Rooted : Computed → Prop
  | real {x : Float} (h : ¬ x < 0) : Rooted (.real x)
  | whole {n : Nat} (h : n < exactLimit) : Rooted (.whole n)

theorem sqrt_real (h : ¬ x < 0) :
    Geometry.sqrt (.real x : Computed) = .real x.sqrt := by
  change (if !decide (x < 0) then .real x.sqrt else .broken .outOfDomain : Computed) = _
  simp [h]

theorem Rooted.sqrt (h : Rooted a) : ∃ x, Geometry.sqrt a = .real (Float.sqrt x) := by
  cases h with
  | @real x hx => exact ⟨x, sqrt_real hx⟩
  | @whole n hn =>
    have hlimit : exactLimit = 2 ^ 53 := rfl
    refine ⟨nearestWhole n, Eq.trans ?_ (sqrt_real (not_nearestWhole_lt_zero hn))⟩
    exact asReal_eq (n := n) (by omega) fun x =>
      if !decide (x < 0) then .real x.sqrt else .broken .outOfDomain

theorem rooted_squares (ha : Within k a) (hb : Within k b) (hk : k * k + k * k < exactLimit) :
    Rooted (a * a + b * b) := by
  have hlimit : exactLimit = 2 ^ 53 := rfl
  have hsquare : ∀ n : Int, n.natAbs ≤ k → ∃ m : Nat, n * n = m ∧ m ≤ k * k := fun n hn =>
    ⟨n.natAbs * n.natAbs, by rw [← Int.natAbs_mul_self' n, Int.natCast_mul],
      Nat.mul_le_mul hn hn⟩
  cases ha with
  | real x =>
    cases hb with
    | real y => exact .real (not_add_lt_zero (not_mul_self_lt_zero x) (not_mul_self_lt_zero y))
    | @whole n hn =>
      obtain ⟨m, hm, hle⟩ := hsquare n hn
      change Rooted (asReal (fun z => .real (x * x + z)) (n * n))
      rw [hm, asReal_eq (by omega)]
      exact .real (not_add_lt_zero (not_mul_self_lt_zero x) (not_nearestWhole_lt_zero (by omega)))
  | @whole n hn =>
    obtain ⟨m, hm, hle⟩ := hsquare n hn
    cases hb with
    | real y =>
      change Rooted (asReal (fun z => .real (z + y * y)) (n * n))
      rw [hm, asReal_eq (by omega)]
      exact .real (not_add_lt_zero (not_nearestWhole_lt_zero (by omega)) (not_mul_self_lt_zero y))
    | @whole n' hn' =>
      obtain ⟨m', hm', hle'⟩ := hsquare n' hn'
      change Rooted (.whole (n * n + n' * n'))
      rw [hm, hm', ← Int.natCast_add]
      exact .whole (by omega)

theorem isReal_cos_sin (h : x.isInf = false) :
    IsReal (Geometry.cos (.real x)) ∧ IsReal (Geometry.sin (.real x)) := by
  have hdefined : (!x.isInf) = true := by rw [h]; rfl
  exact ⟨⟨_, if_pos hdefined⟩, _, if_pos hdefined⟩

/-! ## Comparisons -/

theorem isZero_real (h : (x == 0) = true) :
    Arith.isZero (.real x : Computed) = true := by
  have hsame : (Float.ofInt 0 == x) = true := by
    obtain ⟨s, hs⟩ := beq_zero_iff.mp h
    change UnpackedFloat.beq (0 : Float).toModel.unpack x.toModel.unpack = true
    rw [hs, unpack_zero]
    rfl
  have hpos : (0 : Int).natAbs ≤ exactLimit := Nat.zero_le _
  have hle : atMost (.real x) (.whole 0) = true := by
    rw [atMost, same, if_pos hpos, hsame, Bool.or_true]
    all_goals nofun
  have hge : atMost (.whole 0) (.real x) = true := by
    rw [atMost, same, if_pos hpos, hsame, Bool.or_true]
    all_goals nofun
  change (decide (atMost (.real x) (.whole 0) = true) &&
    decide (atMost (.whole 0) (.real x) = true)) = true
  rw [hle, hge]
  rfl

theorem choose_eq (ha : Within j a) (hb : Within k b) (first : Bool) :
    choose first a b = if first then a else b := by
  cases ha <;> cases hb <;> rfl

theorem IsReal.min (ha : IsReal a) (hb : IsReal b) : IsReal (Arith.min a b) := by
  obtain ⟨x, rfl⟩ := ha
  obtain ⟨y, rfl⟩ := hb
  change IsReal (if _ then .real x else .real y)
  split_ifs
  · exact ⟨x, rfl⟩
  · exact ⟨y, rfl⟩

theorem Within.clamp {value low high : Computed} (hvalue : Within k value) (hlow : Within k low)
    (hhigh : Within k high) : Within k (Arith.clamp value low high) := by
  have hmin : Within k (Arith.min high value) := by
    change Within k (choose _ high value)
    rw [choose_eq hhigh hvalue]
    split_ifs
    · exact hhigh
    · exact hvalue
  change Within k (choose _ low (Arith.min high value))
  rw [choose_eq hlow hmin]
  split_ifs
  · exact hlow
  · exact hmin

end Tame

end Computed

end CodeAtlas
