import CodeAtlas.Proofs.Number.Computing
import CodeAtlas.Proofs.Number.RealOrder

/-!
# Numbers compared

Any two numbers compare, unless one is undefined or a fault, and turning them round turns the
outcome round.

* **`Computed.not_lt_iff`**: what is not below is at least.
-/

namespace CodeAtlas

open Float.Model Float.Model.UnpackedFloat

/-! ## Undefined numbers -/

theorem isNaN_neg (x : Float) : (-x).isNaN = x.isNaN := by
  change UnpackedFloat.isNaN (-x).toModel.unpack = UnpackedFloat.isNaN x.toModel.unpack
  rw [unpack_neg]
  cases x.toModel.unpack <;> rfl

theorem isNaN_ofNat {n : Nat} (hle : n ≤ exactLimit) : (Float.ofNat n).isNaN = false := by
  rcases Nat.eq_zero_or_pos n with rfl | hn
  · rfl
  rcases Nat.eq_or_lt_of_le hle with rfl | hlt
  · decide +kernel
  · obtain ⟨m, e, hm, hx, -, -⟩ := sized_nearestWhole hn hlt
    rw [nearestWhole_natCast hle] at hx
    exact congrArg UnpackedFloat.isNaN hx

theorem isNaN_ofInt {n : Int} (h : n.natAbs ≤ exactLimit) : (Float.ofInt n).isNaN = false := by
  cases n with
  | ofNat n => exact isNaN_ofNat h
  | negSucc n => exact (isNaN_neg _).trans (isNaN_ofNat h)

/-! ## Real numbers compared -/

def compareReal (x y : Float) : Option Ordering := x.toModel.unpack.compare y.toModel.unpack

theorem compareReal_swap (x y : Float) : compareReal y x = (compareReal x y).map Ordering.swap := by
  unfold compareReal
  generalize x.toModel.unpack = a
  generalize y.toModel.unpack = b
  -- one case for each pair of forms and signs
  rcases a with (_ | _) | _ | (_ | _) | ⟨_ | _, m, e, _⟩ <;>
    rcases b with (_ | _) | _ | (_ | _) | ⟨_ | _, n, f, _⟩
  all_goals dsimp only [UnpackedFloat.compare, Option.map]
  -- finite numbers of one sign are compared by their exponents and then by their mantissas
  all_goals simp [Ordering.swap_then, Int.compare_swap, Nat.compare_swap]
  -- what is left are infinite numbers, compared by sign
  all_goals rfl

theorem isSome_compareReal {x y : Float} (hx : x.isNaN = false) (hy : y.isNaN = false) :
    (compareReal x y).isSome = true := by
  change UnpackedFloat.isNaN x.toModel.unpack = false at hx
  change UnpackedFloat.isNaN y.toModel.unpack = false at hy
  unfold compareReal
  generalize x.toModel.unpack = a at hx
  generalize y.toModel.unpack = b at hy
  rcases a with (_ | _) | _ | (_ | _) | ⟨_ | _, m, e, _⟩
  case notANumber => exact Bool.noConfusion hx
  all_goals
    rcases b with (_ | _) | _ | (_ | _) | ⟨_ | _, n, f, _⟩
    case notANumber => exact Bool.noConfusion hy
    all_goals rfl

theorem decide_lt_eq (x y : Float) : decide (x < y) = (compareReal x y == some .lt) := by
  rw [Bool.eq_iff_iff, decide_eq_true_iff]
  exact decide_eq_true_iff

theorem beq_eq (x y : Float) : (x == y) = (compareReal x y == some .eq) := rfl

theorem isSome_compareWhole (n : Int) {x : Float} (hx : x.isNaN = false) :
    (compareWhole n x).isSome = true := by
  unfold compareWhole
  split
  · rfl
  · rw [hx]
    rfl

namespace Computed

def comparison? : Computed → Computed → Option Ordering
  | .real x, .real y => compareReal x y
  | .whole m, .whole n => some (compare m n)
  | .real x, .whole n =>
    if n.natAbs ≤ exactLimit then compareReal x (Float.ofInt n)
    else (compareWhole n x).map Ordering.swap
  | .whole m, .real y =>
    if m.natAbs ≤ exactLimit then compareReal (Float.ofInt m) y else compareWhole m y
  | _, _ => none

/-- The result is a number, and not the undefined one. -/
def Defined : Computed → Prop
  | .whole _ => True
  | .real x => x.isNaN = false
  | .broken _ => False

variable {a b : Computed}

theorem isSome_comparison? (ha : a.Defined) (hb : b.Defined) : (comparison? a b).isSome = true := by
  cases a with
  | broken fault => exact ha.elim
  | whole m =>
    cases b with
    | broken fault => exact hb.elim
    | whole n => rfl
    | real y =>
      dsimp only [comparison?]
      split_ifs with hm
      · exact isSome_compareReal (isNaN_ofInt hm) hb
      · exact isSome_compareWhole m hb
  | real x =>
    cases b with
    | broken fault => exact hb.elim
    | real y => exact isSome_compareReal ha hb
    | whole n =>
      dsimp only [comparison?]
      split_ifs with hn
      · exact isSome_compareReal ha (isNaN_ofInt hn)
      · rw [Option.isSome_map]
        exact isSome_compareWhole n ha

theorem comparison?_swap (a b : Computed) :
    comparison? b a = (comparison? a b).map Ordering.swap := by
  have hback : ∀ o : Option Ordering, (o.map Ordering.swap).map Ordering.swap = o := by
    intro o
    cases o <;> simp
  cases a <;> cases b <;> dsimp only [comparison?]
  case whole.whole m n => simp [Int.compare_swap]
  case real.real x y => exact compareReal_swap x y
  case whole.real m y =>
    split_ifs
    · exact compareReal_swap _ _
    · rfl
  case real.whole x n =>
    split_ifs
    · exact compareReal_swap _ _
    · exact (hback _).symm
  all_goals rfl

theorem map_swap_eq (o : Option Ordering) (p : Ordering) :
    (o.map Ordering.swap == some p) = (o == some p.swap) := by
  cases o with
  | none => rfl
  | some o => cases o <;> cases p <;> rfl

theorem below_eq (ha : a.Defined) (hb : b.Defined) :
    a.below b = (comparison? a b == some .lt) := by
  cases a <;> cases b <;> dsimp only [comparison?, below]
  case whole.whole m n =>
    rw [Bool.eq_iff_iff]
    simp [Int.compare_eq_lt]
  case real.real x y => exact decide_lt_eq x y
  case whole.real m y =>
    split_ifs
    · exact decide_lt_eq _ _
    · rfl
  case real.whole x n =>
    split_ifs
    · exact decide_lt_eq _ _
    · exact (map_swap_eq (compareWhole n x) .lt).symm
  all_goals first | exact ha.elim | exact hb.elim

theorem same_eq (a b : Computed) : a.same b = (comparison? a b == some .eq) := by
  cases a <;> cases b <;> dsimp only [comparison?, same]
  case whole.whole m n =>
    rw [Bool.eq_iff_iff]
    simp
  case real.real x y => rfl
  case whole.real m y =>
    split_ifs
    · rfl
    · rfl
  case real.whole x n =>
    split_ifs
    · rw [beq_eq, compareReal_swap]
      exact map_swap_eq _ _
    · exact (map_swap_eq (compareWhole n x) .eq).symm
  all_goals rfl

theorem lt_iff (ha : a.Defined) (hb : b.Defined) : a < b ↔ comparison? a b = some .lt := by
  change a.below b = true ↔ _
  rw [below_eq ha hb, beq_iff_eq]

theorem le_iff (ha : a.Defined) (hb : b.Defined) :
    a ≤ b ↔ comparison? a b = some .lt ∨ comparison? a b = some .eq := by
  have hmost : a.atMost b = (a.below b || a.same b) := by
    cases a <;> cases b <;> first | rfl | exact ha.elim | exact hb.elim
  change a.atMost b = true ↔ _
  rw [hmost, below_eq ha hb, same_eq, Bool.or_eq_true, beq_iff_eq, beq_iff_eq]

/-- **What is not below is at least.** -/
theorem not_lt_iff (ha : a.Defined) (hb : b.Defined) : ¬ a < b ↔ b ≤ a := by
  obtain ⟨o, ho⟩ := Option.isSome_iff_exists.mp (isSome_comparison? ha hb)
  rw [lt_iff ha hb, le_iff hb ha, comparison?_swap a b, ho]
  cases o <;> simp

end Computed

end CodeAtlas
