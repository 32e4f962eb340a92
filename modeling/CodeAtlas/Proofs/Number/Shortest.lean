import CodeAtlas.Number.Numeral
import CodeAtlas.Proofs.Number.Nearest

/-!
# Digits that identify a number

Seventeen digits are always enough: neighbours on the grid of the seventeenth digit are less than a
unit of the number apart, so one of the two around it reads back.

* **`Decimal.shortest_near`**: the chosen digits read back.
-/

namespace CodeAtlas

namespace Decimal

def value (d : Decimal) : ℚ := d.digits * 10 ^ d.exponent

/-! ## Leading digits -/

theorem lt_pow_digitCount (n : ℕ) : n < 10 ^ digitCount n :=
  (Nat.length_toDigits_le_iff (by decide) Nat.length_toDigits_pos).mp le_rfl

theorem pow_digitCount_le {n : ℕ} (hn : 0 < n) : 10 ^ (digitCount n - 1) ≤ n := by
  rcases Nat.eq_zero_or_pos (digitCount n - 1) with hone | hmore
  · rw [hone]
    exact hn
  · by_contra hlt
    have hle := (Nat.length_toDigits_le_iff (by decide) hmore).mpr (not_le.mp hlt)
    have hcount : (Nat.toDigits 10 n).length = digitCount n := rfl
    omega

theorem digitCount_pos (n : ℕ) : 0 < digitCount n := Nat.length_toDigits_pos

theorem leadingPlace_eq_log {num den : ℕ} (hnum : 0 < num) (hden : 0 < den) :
    leadingPlace num den = Int.log 10 (num / den : ℚ) := by
  have hcount := digitCount_pos num
  have hcount' := digitCount_pos den
  have hupper : ∀ n, n < 10 ^ (digitCount n - 1 + 1) := fun n => by
    rw [Nat.sub_add_cancel (digitCount_pos n)]
    exact lt_pow_digitCount n
  exact leading_eq_log (by decide) (pow_digitCount_le hnum) (hupper num) (pow_digitCount_le hden)
    (hupper den)
    (by omega)

/-! ## Reading back -/

theorem compareScaled_eq (a : ℕ) (i : ℤ) (n : ℕ) (j : ℤ) :
    compareScaled a i n j = compare ((a : ℚ) * 10 ^ i) (n * 2 ^ j) := by
  have hten := zpow_mul_pow_toNat (x := (10 : ℚ)) (by norm_num) i
  have htwo := zpow_mul_pow_toNat (x := (2 : ℚ)) (by norm_num) j
  have hscale : (0 : ℚ) < 10 ^ (-i).toNat * 2 ^ (-j).toNat := by positivity
  have hleft : ((a * Nat.pow 10 i.toNat * Nat.pow 2 (-j).toNat : ℕ) : ℚ) =
      a * 10 ^ i * (10 ^ (-i).toNat * 2 ^ (-j).toNat) := by
    have : ((a * Nat.pow 10 i.toNat * Nat.pow 2 (-j).toNat : ℕ) : ℚ) =
      ((a * 10 ^ i.toNat * 2 ^ (-j).toNat : ℕ) : ℚ) := rfl
    rw [this]
    push_cast
    rw [← hten]
    ring
  have hright : ((n * Nat.pow 2 j.toNat * Nat.pow 10 (-i).toNat : ℕ) : ℚ) =
      n * 2 ^ j * (10 ^ (-i).toNat * 2 ^ (-j).toNat) := by
    have : ((n * Nat.pow 2 j.toNat * Nat.pow 10 (-i).toNat : ℕ) : ℚ) =
      ((n * 2 ^ j.toNat * 10 ^ (-i).toNat : ℕ) : ℚ) := rfl
    rw [this]
    push_cast
    rw [← htwo]
    ring
  unfold compareScaled
  rcases lt_trichotomy ((a : ℚ) * 10 ^ i) (n * 2 ^ j) with h | h | h
  · rw [compare_lt_iff_lt.mpr h, compare_lt_iff_lt, ← Nat.cast_lt (α := ℚ), hleft, hright]
    exact mul_lt_mul_of_pos_right h hscale
  · rw [compare_eq_iff_eq.mpr h, compare_eq_iff_eq, ← Nat.cast_inj (R := ℚ), hleft, hright, h]
  · rw [compare_gt_iff_gt.mpr h, compare_gt_iff_gt, ← Nat.cast_lt (α := ℚ), hleft, hright]
    exact mul_lt_mul_of_pos_right h hscale

section Reading

variable {negative : Bool} {m : ℕ} {e : ℤ} {d : Decimal}

/-- A number with its sign, `m * 2 ^ e` without it. -/
abbrev binary (negative : Bool) (m : ℕ) (e : ℤ) : Binary :=
  ⟨negative, m, e, decide (m = 2 ^ 52 ∧ -1074 < e)⟩

theorem readsBack_iff (hm : 0 < m) :
    readsBack (binary negative m e) d = true ↔ Near m e d.value := by
  have hunit : (2 : ℚ) ^ (e - 2) = 2 ^ e / 4 := by
    rw [zpow_sub₀ two_ne_zero]
    norm_num
  have hlow : ((if decide (m = 2 ^ 52 ∧ -1074 < e) = true then 4 * m - 1 else 4 * m - 2 : ℕ) : ℚ) *
      2 ^ (e - 2) = (m - reach m e) * 2 ^ e := by
    rw [hunit, reach]
    simp only [decide_eq_true_iff]
    split_ifs
    · rw [Nat.cast_sub (by omega)]
      push_cast
      ring
    · rw [Nat.cast_sub (by omega)]
      push_cast
      ring
  have hhigh : ((4 * m + 2 : ℕ) : ℚ) * 2 ^ (e - 2) = (m + 1 / 2) * 2 ^ e := by
    rw [hunit]
    push_cast
    ring
  unfold readsBack
  dsimp only
  rw [compareScaled_eq, compareScaled_eq, hlow, hhigh]
  change ((compare d.value _ == _ || _ && compare d.value _ == _) &&
    (compare d.value _ == _ || _ && compare d.value _ == _)) = true ↔ _
  simp only [Bool.and_eq_true, Bool.or_eq_true, beq_iff_eq, compare_gt_iff_gt, compare_eq_iff_eq,
    compare_lt_iff_lt]
  constructor
  · rintro ⟨hlow, hhigh⟩
    refine ⟨?_, ?_, fun hodd => ?_⟩
    · exact hlow.elim le_of_lt fun h => h.2.ge
    · exact hhigh.elim le_of_lt fun h => h.2.le
    · have hodd' : ¬ m % 2 = 0 := by omega
      exact ⟨hlow.resolve_right fun h => hodd' h.1, hhigh.resolve_right fun h => hodd' h.1⟩
  · rintro ⟨hlow, hhigh, hodd⟩
    rcases Nat.mod_two_eq_zero_or_one m with heven | h
    · exact ⟨hlow.lt_or_eq.imp_right fun h => ⟨heven, h.symm⟩,
        hhigh.lt_or_eq.imp_right fun h => ⟨heven, h⟩⟩
    · exact ⟨Or.inl (hodd h).1, Or.inl (hodd h).2⟩

theorem readsBack_onGrid {b : Binary} {unit : ℤ} (h : onGrid b unit = some d) :
    readsBack b d = true := by
  unfold onGrid at h
  dsimp only at h
  rcases roundDiv_cases (b.ratio (-unit)).1 (b.ratio (-unit)).2 with hnear | hnear
  · split at h <;> grind
  · split at h <;> grind

theorem ratio_eq (negative : Bool) (m : ℕ) (e unit : ℤ) :
    (((binary negative m e).ratio (-unit)).1 : ℚ) / ((binary negative m e).ratio (-unit)).2 =
      m * 2 ^ e / 10 ^ unit := by
  have hten := zpow_mul_pow_toNat (x := (10 : ℚ)) (by norm_num) unit
  have htwo := zpow_mul_pow_toNat (x := (2 : ℚ)) (by norm_num) e
  change ((m * 2 ^ e.toNat * 10 ^ (-unit).toNat : ℕ) : ℚ) /
    ((2 ^ (-e).toNat * 10 ^ (- -unit).toNat : ℕ) : ℚ) = _
  rw [neg_neg]
  push_cast
  rw [← hten, ← htwo]
  field_simp

theorem ratio_pos (negative : Bool) (m : ℕ) (e k : ℤ) : 0 < ((binary negative m e).ratio k).2 :=
  Nat.mul_pos (Nat.two_pow_pos _) (Nat.pow_pos (by decide))

/-- A point of a grid reads back if it is closer to the number than its neighbours are. -/
theorem readsBack_of_close (hm : 0 < m) (hlow : (m - reach m e) * 2 ^ e < d.value)
    (hhigh : d.value < (m + 1 / 2) * 2 ^ e) : readsBack (binary negative m e) d = true :=
  (readsBack_iff hm).mpr ⟨hlow.le, hhigh.le, fun _ => ⟨hlow, hhigh⟩⟩

theorem exists_onGrid (negative : Bool) {unit : ℤ} (hm : 0 < m)
    (hfine : (10 : ℚ) ^ unit / 2 < reach m e * 2 ^ e) :
    ∃ d, onGrid (binary negative m e) unit = some d := by
  have hstep : (0 : ℚ) < 10 ^ unit := by positivity
  have hunit : (0 : ℚ) < 2 ^ e := by positivity
  have hreach := reach_le_half m e
  have hratio := ratio_eq negative m e unit
  have hpos := ratio_pos negative m e (-unit)
  unfold onGrid
  dsimp only
  generalize ((binary negative m e).ratio (-unit)).1 = num at *
  generalize ((binary negative m e).ratio (-unit)).2 = den at *
  have hpos' : (0 : ℚ) < den := by exact_mod_cast hpos
  have hbelow : ((num / den : ℕ) : ℚ) * 10 ^ unit ≤ m * 2 ^ e := by
    rw [← le_div_iff₀ hstep, ← hratio]
    exact Nat.cast_div_le
  have habove : (m * 2 ^ e : ℚ) < ((num / den + 1 : ℕ) : ℚ) * 10 ^ unit := by
    rw [← div_lt_iff₀ hstep, ← hratio, div_lt_iff₀ hpos', mul_comm]
    exact_mod_cast Nat.lt_mul_div_succ num hpos
  push_cast at habove
  have hhalf : reach m e * 2 ^ e ≤ 1 / 2 * 2 ^ e := by gcongr
  by_cases hcloser : (m * 2 ^ e : ℚ) - ((num / den : ℕ) : ℚ) * 10 ^ unit ≤ 10 ^ unit / 2
  · have hreads : readsBack (binary negative m e) ⟨num / den, unit⟩ = true := by
      refine readsBack_of_close hm ?_ ?_ <;> (unfold value; dsimp only; linarith)
    rw [hreads]
    split <;> simp_all
  · have hreads : readsBack (binary negative m e) ⟨num / den + 1, unit⟩ = true := by
      refine readsBack_of_close hm ?_ ?_ <;> (unfold value; push_cast; linarith)
    rw [hreads]
    split <;> simp_all

/-! ## The fewest digits -/

theorem value_strip (fuel : ℕ) (d : Decimal) : (strip fuel d).value = d.value := by
  fun_induction strip fuel d with
  | case1 d => rfl
  | case2 fuel d h ih =>
    have hdigits : (d.digits : ℚ) = ((d.digits / 10 : ℕ) : ℚ) * 10 := by
      exact_mod_cast (Nat.div_mul_cancel (Nat.dvd_of_mod_eq_zero h.2)).symm
    rw [ih]
    unfold value
    rw [zpow_add₀ (by norm_num), hdigits]
    ring
  | case3 fuel d h => rfl

theorem value_normal (d : Decimal) : (normal d).value = d.value := by
  unfold normal
  split_ifs with h
  · simp [value, h]
  · exact value_strip _ d

theorem seventeenth_digit_fine (hm : 0 < m) (hlt : m < 2 ^ 53) :
    (10 : ℚ) ^ (Int.log 10 (m * 2 ^ e : ℚ) - 16) / 2 < reach m e * 2 ^ e := by
  have hm' : (0 : ℚ) < m := by exact_mod_cast hm
  have hunit : (0 : ℚ) < 2 ^ e := by positivity
  have hlead : ((10 : ℕ) : ℚ) ^ Int.log 10 (m * 2 ^ e : ℚ) ≤ m * 2 ^ e :=
    Int.zpow_log_le_self (by decide) (by positivity)
  have hdigit : (10 : ℚ) ^ (Int.log 10 (m * 2 ^ e : ℚ) - 16) ≤ m * 2 ^ e / 10 ^ 16 := by
    rw [zpow_sub₀ (by norm_num)]
    gcongr
    · exact_mod_cast hlead
    · norm_num
  have hsize : (m : ℚ) / 10 ^ 16 / 2 < reach m e := by
    unfold reach
    split_ifs with h
    · rw [h.1]
      norm_num
    · have hlt' : (m : ℚ) < 2 ^ 53 := by exact_mod_cast hlt
      calc (m : ℚ) / 10 ^ 16 / 2 < 2 ^ 53 / 10 ^ 16 / 2 := by gcongr
        _ < 1 / 2 := by norm_num
  calc (10 : ℚ) ^ (Int.log 10 (m * 2 ^ e : ℚ) - 16) / 2
      ≤ m * 2 ^ e / 10 ^ 16 / 2 := by gcongr
    _ = m / 10 ^ 16 / 2 * 2 ^ e := by ring
    _ < reach m e * 2 ^ e := by gcongr

theorem shortest_near (negative : Bool) (e : ℤ) (hm : 0 < m) (hlt : m < 2 ^ 53) :
    Near m e (shortest (binary negative m e)).value := by
  have hratio := ratio_eq negative m e 0
  rw [neg_zero, zpow_zero, div_one] at hratio
  have hden := ratio_pos negative m e 0
  have hnum : 0 < ((binary negative m e).ratio 0).1 :=
    Nat.mul_pos (Nat.mul_pos hm (Nat.two_pow_pos _)) Nat.one_pos
  have hlead := leadingPlace_eq_log hnum hden
  rw [hratio] at hlead
  unfold shortest
  dsimp only
  rw [value_normal, hlead]
  have hfound : (((List.range 17).map fun n : ℕ => Int.log 10 (m * 2 ^ e : ℚ) - (n : ℤ)).findSome?
      (onGrid (binary negative m e))).isSome := by
    obtain ⟨d, hd⟩ := exists_onGrid negative hm (seventeenth_digit_fine hm hlt)
    rw [List.findSome?_isSome_iff]
    exact ⟨_, List.mem_map.mpr ⟨16, by decide, rfl⟩, Option.isSome_iff_exists.mpr ⟨d, hd⟩⟩
  obtain ⟨d, hd⟩ := Option.isSome_iff_exists.mp hfound
  obtain ⟨unit, -, hgrid⟩ := List.exists_of_findSome?_eq_some hd
  rw [hd, Option.getD_some]
  exact (readsBack_iff hm).mp (readsBack_onGrid hgrid)

end Reading

/-! ## Reading digits -/

section Digits

open Float.Model.UnpackedFloat

variable {d : Decimal} {m : ℕ} {e : ℤ}

theorem digits_pos (hm : 0 < m) (hnear : Near m e d.value) : 0 < d.digits := by
  have hpos := hnear.pos hm
  rcases Nat.eq_zero_or_pos d.digits with hzero | hd
  · simp [value, hzero] at hpos
  · exact hd

theorem value_bounds (hd : 0 < d.digits) :
    (10 : ℚ) ^ (d.exponent + digitCount d.digits - 1) ≤ d.value ∧
      d.value < 10 ^ (d.exponent + digitCount d.digits) := by
  have hpos : (0 : ℚ) < 10 ^ d.exponent := by positivity
  have hcount := digitCount_pos d.digits
  constructor
  · have hsplit : d.exponent + digitCount d.digits - 1 =
        ((digitCount d.digits - 1 : ℕ) : ℤ) + d.exponent := by omega
    rw [hsplit, zpow_add₀ (by norm_num), zpow_natCast, value]
    gcongr
    exact_mod_cast pow_digitCount_le hd
  · rw [add_comm, zpow_add₀ (by norm_num), zpow_natCast, value]
    gcongr
    exact_mod_cast lt_pow_digitCount d.digits

theorem two_pow_le_ten_pow : (2 : ℚ) ^ 1075 ≤ 10 ^ 400 :=
  calc (2 : ℚ) ^ 1075 ≤ 2 ^ (3 * 400) := pow_le_pow_right₀ one_le_two (by norm_num)
    _ = (2 ^ 3) ^ 400 := pow_mul 2 3 400
    _ ≤ 10 ^ 400 := pow_le_pow_left₀ (by norm_num) (by norm_num) 400

theorem lead_bounds (hd : 0 < d.digits) (h : Packable m e) (he : e ≤ 971)
    (hnear : Near m e d.value) :
    -400 ≤ d.exponent + digitCount d.digits ∧ d.exponent + digitCount d.digits ≤ 400 := by
  obtain ⟨hm, hlt, hleast, -⟩ := h
  obtain ⟨hlow, hhigh⟩ := value_bounds hd
  have hunit : (0 : ℚ) < 2 ^ e := by positivity
  constructor
  · have hm' : (1 : ℚ) ≤ m := by exact_mod_cast hm
    have hreach := reach_le_half m e
    have hsmall : (10 : ℚ) ^ (-400 : ℤ) < 10 ^ (d.exponent + digitCount d.digits) :=
      calc (10 : ℚ) ^ (-400 : ℤ) = (10 ^ 400)⁻¹ := zpow_neg_coe_of_pos _ (by norm_num)
        _ ≤ (2 ^ 1075)⁻¹ := inv_anti₀ (by positivity) two_pow_le_ten_pow
        _ = 2 ^ (-1074 : ℤ) / 2 := by
            rw [← zpow_natCast, ← zpow_neg, div_eq_mul_inv, ← zpow_sub_one₀ two_ne_zero]
            rfl
        _ ≤ 2 ^ e / 2 := by gcongr; exact one_le_two
        _ ≤ (m - reach m e) * 2 ^ e := by nlinarith
        _ ≤ d.value := hnear.low
        _ < _ := hhigh
    exact ((zpow_lt_zpow_iff_right₀ (by norm_num)).mp hsmall).le
  · have hm' : (m : ℚ) + 1 ≤ 2 ^ 53 := by exact_mod_cast hlt
    have hlarge : (10 : ℚ) ^ (d.exponent + digitCount d.digits - 1) < 10 ^ (400 : ℤ) :=
      calc (10 : ℚ) ^ (d.exponent + digitCount d.digits - 1) ≤ d.value := hlow
        _ ≤ (m + 1 / 2) * 2 ^ e := hnear.high
        _ < 2 ^ 53 * 2 ^ e := by gcongr; linarith
        _ ≤ 2 ^ 53 * 2 ^ (971 : ℤ) := by gcongr; exact one_le_two
        _ = 2 ^ (53 + 971) := by
            rw [pow_add]
            exact congrArg (2 ^ 53 * ·) (zpow_natCast 2 971)
        _ ≤ 2 ^ 1075 := pow_le_pow_right₀ one_le_two (by norm_num)
        _ ≤ 10 ^ 400 := two_pow_le_ten_pow
        _ = 10 ^ (400 : ℤ) := (zpow_natCast 10 400).symm
    have := (zpow_lt_zpow_iff_right₀ (by norm_num)).mp hlarge
    omega

theorem nearestFloat_of_near {x : Float} {s : Sign} {hm : 0 < m}
    (hx : x.toModel.unpack = .finite s m e hm) (hnear : Near m e d.value) :
    signed (s == .negative) (nearestFloat d.digits d.exponent) = x := by
  obtain ⟨hpackable, he⟩ := packed_of_unpack hx
  have hd := digits_pos hm hnear
  obtain ⟨hlow, hhigh⟩ := lead_bounds hd hpackable he hnear
  have hquotient : ((d.digits * Nat.pow 10 d.exponent.toNat : ℕ) : ℚ) /
      ((Nat.pow 10 (-d.exponent).toNat : ℕ) : ℚ) = d.value := by
    have hten := zpow_mul_pow_toNat (x := (10 : ℚ)) (by norm_num) d.exponent
    change ((d.digits * 10 ^ d.exponent.toNat : ℕ) : ℚ) /
      ((10 ^ (-d.exponent).toNat : ℕ) : ℚ) = _
    push_cast
    rw [← hten, value]
    field_simp
  have hzero : ¬ (d.digits = 0 ∨ d.exponent + digitCount d.digits < -400) := by omega
  rw [nearestFloat, if_neg hzero, if_neg (by omega)]
  exact nearestQuotient_of_near hx (Nat.pow_pos (by decide)) (hquotient ▸ hnear)

end Digits

end Decimal

end CodeAtlas
