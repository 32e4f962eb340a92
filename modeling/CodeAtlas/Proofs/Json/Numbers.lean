import CodeAtlas.Json.Reader
import CodeAtlas.Json.Writer
import CodeAtlas.Proofs.Number.Shortest

/-!
# Numbers in JSON text

Reading a number takes the longest digits it finds, so what follows must not go on with it. A real
number is written by its shortest digits, and is the number nearest to them.

* **`Json.Reader.atom_intText`**, **`Json.Reader.atom_realWord`**: numbers are read back.
-/

namespace CodeAtlas

/-! ## The parts of a number -/

namespace Numeral

/-- The digits of a number in front of its point and behind it, and its exponent. -/
structure Parts where
  whole : List Char
  fraction : List Char
  shift : Option ℤ

def shiftDigits (k : ℤ) : List Char :=
  let places := Nat.toDigits 10 k.natAbs
  if places.length < 2 then '0' :: places else places

def shiftText (k : ℤ) : List Char := 'e' :: (if k < 0 then '-' else '+') :: shiftDigits k

namespace Parts

def text (p : Parts) : List Char :=
  p.whole ++ ((if p.fraction = [] then [] else '.' :: p.fraction) ++ p.shift.elim [] shiftText)

def decimal (p : Parts) : Decimal :=
  ⟨Nat.ofDigitChars 10 (p.whole ++ p.fraction) 0, p.shift.getD 0 - p.fraction.length⟩

/-- There are digits in front of the point, and only a lone zero begins with zero. -/
structure Proper (p : Parts) : Prop where
  whole_digits : ∀ c ∈ p.whole, c.isDigit = true
  whole_ne_nil : p.whole ≠ []
  lone_zero : p.whole.head? = some '0' → p.whole = ['0']
  fraction_digits : ∀ c ∈ p.fraction, c.isDigit = true

end Parts

end Numeral

namespace Json.Reader

open Numeral

def NoDigit (cs : List Char) : Prop := ∀ c ∈ cs.head?, c.isDigit = false

def Stops (cs : List Char) : Prop :=
  ∀ c ∈ cs.head?, c.isDigit = false ∧ c ≠ '.' ∧ c ≠ 'e' ∧ c ≠ 'E'

variable {cs rest : List Char}

theorem Stops.noDigit (h : Stops rest) : NoDigit rest := fun c hc => (h c hc).1

theorem digits_append (hcs : ∀ c ∈ cs, c.isDigit = true) (hrest : NoDigit rest) :
    digits (cs ++ rest) = (cs.map fun c => c.toNat - 48, rest) := by
  have htake : rest.takeWhile Char.isDigit = [] := by
    cases rest with
    | nil => rfl
    | cons c rest => rw [List.takeWhile_cons_of_neg (by simpa using hrest c rfl)]
  have hdrop : rest.dropWhile Char.isDigit = rest := by
    cases rest with
    | nil => rfl
    | cons c rest => rw [List.dropWhile_cons_of_neg (by simpa using hrest c rfl)]
  rw [digits, List.takeWhile_append_of_pos hcs, List.dropWhile_append_of_pos hcs, htake, hdrop,
    List.append_nil]

theorem value_map (cs : List Char) :
    Numeral.value (cs.map fun c => c.toNat - 48) = Nat.ofDigitChars 10 cs 0 := by
  rw [Numeral.value, List.foldl_map, Nat.ofDigitChars_eq_foldl]
  rfl

theorem fraction_text (hcs : ∀ c ∈ cs, c.isDigit = true) (hne : cs ≠ []) (hrest : NoDigit rest) :
    fraction ('.' :: (cs ++ rest)) = (cs.map fun c => c.toNat - 48, rest) := by
  rw [fraction, digits_append hcs hrest]
  cases cs with
  | nil => exact absurd rfl hne
  | cons c cs => rfl

theorem fraction_none (h : ∀ c ∈ rest.head?, c ≠ '.') : fraction rest = ([], rest) := by
  unfold fraction
  split
  · exact absurd rfl (h _ rfl)
  · rfl

theorem exponent?_none (h : Stops rest) : exponent? rest = none := by
  cases rest with
  | nil => rfl
  | cons c rest =>
    obtain ⟨-, -, he, hE⟩ := h c rfl
    rw [exponent?, if_neg]
    simp [he, hE]

theorem toDigits_digits (n : ℕ) : ∀ c ∈ Nat.toDigits 10 n, c.isDigit = true := fun _ hc =>
  Nat.isDigit_of_mem_toDigits (by decide) (by decide) hc

variable (k : ℤ) {p : Parts} (shift : Option ℤ)

theorem signedInt_natAbs : signedInt (decide (k < 0)) k.natAbs = k := by
  unfold signedInt
  by_cases hk : k < 0
  · rw [if_pos (decide_eq_true hk)]
    omega
  · rw [if_neg (by simpa using hk)]
    omega

theorem shiftDigits_digits : ∀ c ∈ shiftDigits k, c.isDigit = true := by
  unfold shiftDigits
  dsimp only
  split_ifs
  · exact List.forall_mem_cons.mpr ⟨rfl, toDigits_digits _⟩
  · exact toDigits_digits _

theorem shiftDigits_ne_nil : shiftDigits k ≠ [] := by
  unfold shiftDigits
  dsimp only
  split_ifs
  · exact List.cons_ne_nil _ _
  · exact Nat.toDigits_ne_nil

theorem ofDigitChars_shiftDigits : Nat.ofDigitChars 10 (shiftDigits k) 0 = k.natAbs := by
  unfold shiftDigits
  dsimp only
  split_ifs
  · exact Nat.ofDigitChars_cons.trans Nat.ofDigitChars_ten_toDigits
  · exact Nat.ofDigitChars_ten_toDigits

theorem exponent?_shiftText (h : NoDigit rest) :
    exponent? (shiftText k ++ rest) = some (k, rest) := by
  have hsign : sign ((if k < 0 then '-' else '+') :: (shiftDigits k ++ rest)) =
      (decide (k < 0), shiftDigits k ++ rest) := by
    by_cases hk : k < 0
    · rw [if_pos hk, decide_eq_true hk]
      rfl
    · rw [if_neg hk, decide_eq_false hk]
      rfl
  have hvalue := ofDigitChars_shiftDigits k
  have hne := shiftDigits_ne_nil k
  rw [← value_map] at hvalue
  rw [shiftText, List.cons_append, List.cons_append, exponent?, if_pos (by decide), hsign]
  dsimp only
  rw [digits_append (shiftDigits_digits k) h]
  cases hds : shiftDigits k with
  | nil => exact absurd hds hne
  | cons d ds =>
    rw [hds] at hvalue
    exact congrArg (fun n => some (n, rest)) (hvalue ▸ signedInt_natAbs k)

/-! ## Reading a number -/

theorem eq_zero_of_isDigit {c : Char} (hdigit : c.isDigit = true) (hzero : c.toNat - 48 = 0) :
    c = '0' := by
  simp only [Char.isDigit, Bool.and_eq_true, decide_eq_true_eq, ge_iff_le,
    UInt32.le_iff_toNat_le] at hdigit
  refine Char.ext (UInt32.toNat_inj.mp ?_)
  have hval : c.toNat = c.val.toNat := rfl
  have hchar : ('0' : Char).val.toNat = 48 := rfl
  have hlow : (48 : UInt32).toNat = 48 := rfl
  omega

theorem whole_read (hp : p.Proper) {d : ℕ} {ds : List ℕ}
    (hread : p.whole.map (fun c => c.toNat - 48) = d :: ds) :
    (if d = 0 then ([0], (p.whole ++ rest).drop 1) else (d :: ds, rest)) = (d :: ds, rest) := by
  split_ifs with hzero
  · cases hwhole : p.whole with
    | nil => exact absurd hwhole hp.whole_ne_nil
    | cons c cs =>
      rw [hwhole, List.map_cons, List.cons.injEq] at hread
      obtain ⟨hd, hds⟩ := hread
      obtain rfl := eq_zero_of_isDigit (hp.whole_digits c (by simp [hwhole])) (hd.trans hzero)
      have hlone := hp.lone_zero (by simp [hwhole])
      rw [hwhole, List.cons.injEq] at hlone
      rw [← hds, hlone.2, hzero]
      rfl
  · rfl

theorem fraction_parts (hp : p.Proper) (h : NoDigit rest) (hpoint : ∀ c ∈ rest.head?, c ≠ '.') :
    fraction ((if p.fraction = [] then [] else '.' :: p.fraction) ++ rest) =
      (p.fraction.map fun c => c.toNat - 48, rest) := by
  split_ifs with hnil
  · rw [hnil]
    exact fraction_none hpoint
  · exact fraction_text hp.fraction_digits hnil h

theorem exponent?_shift (h : Stops rest) :
    exponent? (shift.elim [] shiftText ++ rest) = shift.map (·, rest) := by
  cases shift with
  | none => exact exponent?_none h
  | some k => exact exponent?_shiftText k h.noDigit

theorem shift_head (h : Stops rest) :
    ∀ c ∈ (shift.elim [] shiftText ++ rest).head?, c.isDigit = false ∧ c ≠ '.' := by
  cases shift with
  | none => exact fun c hc => ⟨(h c hc).1, (h c hc).2.1⟩
  | some k =>
    rintro c ⟨⟩
    decide

theorem number_text (hp : p.Proper) (negative : Bool) (h : Stops rest) :
    number negative (p.text ++ rest) =
      if p.fraction = [] ∧ p.shift = none then
        if mostDigits < p.whole.length then .error .longNumber
        else .ok (.int (signedInt negative p.decimal.digits), rest)
      else
        .ok (.float (signed negative (nearestFloat p.decimal.digits p.decimal.exponent)),
          rest) := by
  have hhead := shift_head p.shift h
  have htail : NoDigit ((if p.fraction = [] then [] else '.' :: p.fraction) ++
      (p.shift.elim [] shiftText ++ rest)) := by
    split_ifs
    · exact fun c hc => (hhead c hc).1
    · rintro c ⟨⟩
      decide
  have hfraction := fraction_parts hp (fun c hc => (hhead c hc).1) fun c hc => (hhead c hc).2
  have hexponent := exponent?_shift p.shift h
  have hread := digits_append hp.whole_digits htail
  have hlength : (p.whole.map fun c => c.toNat - 48).length = p.whole.length := List.length_map ..
  have hvalue : Numeral.value (p.whole.map (fun c => c.toNat - 48) ++
      p.fraction.map fun c => c.toNat - 48) = p.decimal.digits := by
    rw [← List.map_append, value_map]
    rfl
  rw [number, Parts.text, List.append_assoc, List.append_assoc, hread]
  cases hmap : p.whole.map fun c => c.toNat - 48 with
  | nil => exact absurd (List.map_eq_nil_iff.mp hmap) hp.whole_ne_nil
  | cons d ds =>
    dsimp only
    rw [whole_read hp hmap]
    dsimp only
    rw [hfraction, hexponent]
    rw [hmap] at hlength hvalue
    have hplaces : p.decimal.exponent =
        p.shift.getD 0 - (p.fraction.map fun c => c.toNat - 48).length := by
      rw [List.length_map]
      rfl
    cases hparts : p.fraction.map fun c => c.toNat - 48 with
    | nil =>
      rw [hparts] at hvalue hplaces
      have hnil := List.map_eq_nil_iff.mp hparts
      cases hshift : p.shift with
      | none =>
        have hwhole : p.fraction = [] ∧ (none : Option ℤ) = none := ⟨hnil, rfl⟩
        rw [if_pos hwhole, ← hvalue, ← hlength, List.append_nil]
        rfl
      | some k =>
        have hreal : ¬ (p.fraction = [] ∧ some k = none) := by simp
        rw [if_neg hreal, ← hvalue, hplaces, hshift]
        rfl
    | cons n parts =>
      rw [hparts] at hvalue hplaces
      have hreal : ¬ (p.fraction = [] ∧ p.shift = none) := fun hboth => by simp [hboth.1] at hparts
      rw [if_neg hreal, ← hvalue, hplaces]
      cases hshift : p.shift <;> rfl

end Json.Reader

/-! ## Writing a number -/

namespace Numeral

open Json.Reader

theorem toDigits_head {n : ℕ} (hn : 0 < n) : (Nat.toDigits 10 n).head? ≠ some '0' := by
  induction n using Nat.strongRecOn with
  | ind n ih =>
    by_cases hlt : n < 10
    · rw [Nat.toDigits_of_lt_base hlt]
      interval_cases n <;> decide
    · have hhead := ih (n / 10) (by omega) (by omega)
      rw [Nat.toDigits_of_base_le (by decide) (by omega), List.head?_append]
      cases hdigits : (Nat.toDigits 10 (n / 10)).head? with
      | none => exact absurd (List.head?_eq_none_iff.mp hdigits) Nat.toDigits_ne_nil
      | some c => rwa [hdigits] at hhead

def natParts (n : ℕ) : Parts := ⟨Nat.toDigits 10 n, [], none⟩

theorem proper_natParts (n : ℕ) : (natParts n).Proper := by
  refine ⟨toDigits_digits n, Nat.toDigits_ne_nil, fun hhead => ?_, by simp [natParts]⟩
  rcases Nat.eq_zero_or_pos n with rfl | hn
  · rfl
  · exact absurd hhead (toDigits_head hn)

def splitParts (n k : ℕ) (shift : Option ℤ) : Parts :=
  ⟨(Nat.toDigits 10 n).take k, (Nat.toDigits 10 n).drop k, shift⟩

theorem proper_splitParts {n k : ℕ} (hn : 0 < n) (hk : k ≠ 0) (shift : Option ℤ) :
    (splitParts n k shift).Proper := by
  refine ⟨fun c hc => toDigits_digits n c (List.mem_of_mem_take hc), ?_, fun hzero => ?_,
    fun c hc => toDigits_digits n c (List.mem_of_mem_drop hc)⟩
  · simp [splitParts, hk, Nat.toDigits_ne_nil]
  · rw [splitParts, List.head?_take, if_neg hk] at hzero
    exact absurd hzero (toDigits_head hn)

variable (n k : ℕ) (shift : Option ℤ)

theorem decimal_splitParts {n k : ℕ} (hk : k ≤ Decimal.digitCount n) :
    (splitParts n k shift).decimal = ⟨n, shift.getD 0 + k - Decimal.digitCount n⟩ := by
  rw [splitParts, Parts.decimal, List.take_append_drop, Nat.ofDigitChars_ten_toDigits,
    List.length_drop, Decimal.mk.injEq]
  refine ⟨rfl, ?_⟩
  change shift.getD 0 - ((Decimal.digitCount n - k : ℕ) : ℤ) = _
  omega

theorem text_splitParts :
    (splitParts n k shift).text =
      NumberStyle.pointAfter (Nat.toDigits 10 n) k ++ shift.elim [] shiftText := by
  rw [splitParts, Parts.text, NumberStyle.pointAfter]
  dsimp only
  split_ifs with h
  · rfl
  · rw [List.append_assoc]

def paddedParts (n k : ℕ) : Parts := ⟨Nat.toDigits 10 n ++ List.replicate k '0', ['0'], none⟩

theorem proper_paddedParts {n : ℕ} (hn : 0 < n) (k : ℕ) : (paddedParts n k).Proper := by
  have hzeros : ∀ c ∈ List.replicate k '0', c.isDigit = true := fun c hc =>
    (List.eq_of_mem_replicate hc) ▸ rfl
  refine ⟨List.forall_mem_append.mpr ⟨toDigits_digits n, hzeros⟩, ?_, fun hzero => ?_, by
    simp [paddedParts]⟩
  · simp [paddedParts, Nat.toDigits_ne_nil]
  · rw [paddedParts, List.head?_append_of_ne_nil _ Nat.toDigits_ne_nil] at hzero
    exact absurd hzero (toDigits_head hn)

theorem value_paddedParts : (paddedParts n k).decimal.value = n * 10 ^ k := by
  have hdigits : Nat.ofDigitChars 10 (Nat.toDigits 10 n ++ List.replicate k '0' ++ ['0']) 0 =
      10 * (10 ^ k * n) := by
    rw [Nat.ofDigitChars_append, Nat.ofDigitChars_append, Nat.ofDigitChars_ten_toDigits,
      Nat.ofDigitChars_replicate_zero]
    rfl
  rw [paddedParts, Parts.decimal, hdigits, Decimal.value]
  norm_num
  ring

def smallParts (n k : ℕ) : Parts := ⟨['0'], List.replicate k '0' ++ Nat.toDigits 10 n, none⟩

theorem proper_smallParts : (smallParts n k).Proper := by
  have hzeros : ∀ c ∈ List.replicate k '0', c.isDigit = true := fun c hc =>
    (List.eq_of_mem_replicate hc) ▸ rfl
  exact ⟨by simp [smallParts], by simp [smallParts], fun _ => rfl,
    List.forall_mem_append.mpr ⟨hzeros, toDigits_digits n⟩⟩

theorem decimal_smallParts :
    (smallParts n k).decimal = ⟨n, -((k + Decimal.digitCount n : ℕ) : ℤ)⟩ := by
  have hdigits :
      Nat.ofDigitChars 10 (['0'] ++ (List.replicate k '0' ++ Nat.toDigits 10 n)) 0 = n := by
    rw [Nat.ofDigitChars_append, Nat.ofDigitChars_append, Nat.ofDigitChars_replicate_zero]
    exact Nat.ofDigitChars_ten_toDigits
  rw [smallParts, Parts.decimal, hdigits, List.length_append, List.length_replicate]
  exact congrArg _ (zero_sub _)

/-- A positive decimal has parts of the same value, with a point or an exponent. -/
theorem exists_parts {d : Decimal} (hd : 0 < d.digits) :
    ∃ p : Parts, p.Proper ∧ (realStyle.layOut d).toList = p.text ∧
      ¬ (p.fraction = [] ∧ p.shift = none) ∧ p.decimal.value = d.value := by
  obtain ⟨n, k⟩ := d
  have hcount := Decimal.digitCount_pos n
  have hlength : (Nat.toDigits 10 n).length = Decimal.digitCount n := rfl
  have hzero : (if realStyle.pointZero = true then ['.', '0'] else []) = ['.', '0'] := rfl
  unfold NumberStyle.layOut
  dsimp only
  rw [String.toList_ofList, hlength, hzero]
  generalize hlead : k + Decimal.digitCount n - 1 = lead
  by_cases hplain : realStyle.plainFrom ≤ lead ∧ lead < realStyle.plainBelow
  · rw [if_pos hplain]
    by_cases hwhole : 0 ≤ k
    · rw [if_pos hwhole]
      refine ⟨paddedParts n k.toNat, proper_paddedParts hd _, ?_, by simp [paddedParts], ?_⟩
      · simp [paddedParts, Parts.text]
      · rw [value_paddedParts, Decimal.value, ← zpow_natCast, Int.toNat_of_nonneg hwhole]
    rw [if_neg hwhole]
    by_cases hpoint : 0 ≤ lead
    · rw [if_pos hpoint]
      refine ⟨splitParts n (lead.toNat + 1) none, proper_splitParts hd (by omega) none, ?_, ?_, ?_⟩
      · rw [text_splitParts]
        exact (List.append_nil _).symm
      · simp [splitParts]
        omega
      · rw [decimal_splitParts none (by omega), Option.getD_none]
        congr 2
        omega
    · rw [if_neg hpoint]
      refine ⟨smallParts n (-lead - 1).toNat, proper_smallParts n _, ?_, ?_, ?_⟩
      · simp [smallParts, Parts.text, Nat.toDigits_ne_nil]
      · simp [smallParts, Nat.toDigits_ne_nil]
      · rw [decimal_smallParts]
        congr 2
        omega
  · rw [if_neg hplain]
    refine ⟨splitParts n 1 (some lead), proper_splitParts hd one_ne_zero _, ?_, ?_, ?_⟩
    · rw [text_splitParts]
      rfl
    · simp [splitParts]
    · rw [decimal_splitParts _ hcount, Option.getD_some]
      congr 2
      omega

theorem Parts.Proper.exists_head {p : Parts} (hp : p.Proper) :
    ∃ c cs, p.text = c :: cs ∧ c.isDigit = true := by
  cases hwhole : p.whole with
  | nil => exact absurd hwhole hp.whole_ne_nil
  | cons c cs => exact ⟨c, _, by rw [Parts.text, hwhole]; rfl, hp.whole_digits c (by simp [hwhole])⟩

end Numeral

namespace Json.Reader

open Numeral Float.Model Float.Model.UnpackedFloat

variable {rest : List Char}

theorem atom_text {p : Parts} (hp : p.Proper) (negative : Bool) :
    atom ((if negative then ['-'] else []) ++ (p.text ++ rest)) =
      number negative (p.text ++ rest) := by
  obtain ⟨c, cs, htext, hc⟩ := hp.exists_head
  rw [htext]
  cases negative with
  | true =>
    rw [if_pos rfl]
    unfold atom
    split <;> simp_all
  | false =>
    rw [if_neg (by decide)]
    unfold atom
    split <;> simp_all

variable (n : ℤ) {x : Float} {b : Binary}

theorem toList_intText :
    (intText n).toList = (if decide (n < 0) then ['-'] else []) ++ (natParts n.natAbs).text := by
  have htext : (natParts n.natAbs).text = (natText n.natAbs).toList := by
    simp [natParts, Parts.text, natText]
  rw [htext, intText]
  by_cases hneg : n < 0
  · rw [if_pos hneg, if_pos (decide_eq_true hneg), String.toList_append]
    rfl
  · rw [if_neg hneg, if_neg (by simpa using hneg)]
    rfl

theorem atom_intText (hn : Decimal.digitCount n.natAbs ≤ mostDigits) (h : Stops rest) :
    atom ((intText n).toList ++ rest) = .ok (.int n, rest) := by
  have hdigits : (natParts n.natAbs).decimal.digits = n.natAbs := by
    rw [natParts, Parts.decimal, List.append_nil, Nat.ofDigitChars_ten_toDigits]
  have hlength : ¬ mostDigits < (natParts n.natAbs).whole.length := not_lt.mpr hn
  rw [toList_intText, List.append_assoc, atom_text (proper_natParts _),
    number_text (proper_natParts _) _ h, if_pos ⟨rfl, rfl⟩, if_neg hlength, hdigits,
    signedInt_natAbs]

theorem toList_realText (hb : Binary.ofFloat? x = some b) :
    (realText x).toList = (if b.negative then ['-'] else []) ++
      (if b.mantissa = 0 then "0.0" else realStyle.layOut (Decimal.shortest b)).toList := by
  have hzero : (if realStyle.pointZero = true then "0.0" else "0") = "0.0" := rfl
  rw [realText, NumberStyle.write, hb]
  dsimp only
  rw [hzero]
  split_ifs
  all_goals simp only [String.toList_append, List.nil_append]
  all_goals rfl

/-- A finite number is the one nearest to the digits it is written in. -/
theorem exists_realParts (hb : Binary.ofFloat? x = some b) :
    ∃ p : Parts, p.Proper ∧
      (realText x).toList = (if b.negative then ['-'] else []) ++ p.text ∧
      ¬ (p.fraction = [] ∧ p.shift = none) ∧
      signed b.negative (nearestFloat p.decimal.digits p.decimal.exponent) = x := by
  rw [toList_realText hb]
  rcases Binary.ofFloat?_cases x with ⟨s, m, e, hm, hx, hfinite⟩ | ⟨s, hx, hzero⟩ | ⟨-, hnone⟩
  · obtain rfl := Option.some_inj.mp (hb.symm.trans hfinite)
    have hnear := Decimal.shortest_near (s == .negative) e hm (packed_of_unpack hx).1.lt
    obtain ⟨p, hp, htext, hreal, hvalue⟩ := exists_parts (Decimal.digits_pos hm hnear)
    rw [← hvalue] at hnear
    refine ⟨p, hp, ?_, hreal, Decimal.nearestFloat_of_near hx hnear⟩
    rw [if_neg hm.ne', htext]
  · obtain rfl := Option.some_inj.mp (hb.symm.trans hzero)
    refine ⟨⟨['0'], ['0'], none⟩, ⟨by simp, by simp, fun _ => rfl, by simp⟩, ?_, by simp, ?_⟩
    · rw [if_pos rfl]
      rfl
    refine eq_of_unpack_eq (Eq.trans ?_ hx.symm)
    cases s <;> rfl
  · rw [hb] at hnone
    cases hnone

/-- A real number is written by its digits, or by a word if it is infinite or undefined. -/
theorem realWord_cases (x : Float) :
    (∃ b, Binary.ofFloat? x = some b ∧ Writer.realWord x = realText x) ∨
    (x = 0 / 0 ∧ Writer.realWord x = "NaN") ∨ (x = 1 / 0 ∧ Writer.realWord x = "Infinity") ∨
    (x = -(1 / 0) ∧ Writer.realWord x = "-Infinity") := by
  have hfinite (hnan : x.isNaN = false) (hinf : x.isInf = false) :
      Writer.realWord x = realText x := by
    rw [Writer.realWord, hnan, hinf]
    rfl
  rcases Binary.ofFloat?_cases x with ⟨s, m, e, hm, hx, hb⟩ | ⟨s, hx, hb⟩ | ⟨hx | ⟨s, hx⟩, -⟩
  · exact Or.inl ⟨_, hb, hfinite (congrArg UnpackedFloat.isNaN hx)
      (congrArg UnpackedFloat.isInf hx)⟩
  · exact Or.inl ⟨_, hb, hfinite (congrArg UnpackedFloat.isNaN hx)
      (congrArg UnpackedFloat.isInf hx)⟩
  · have hnan : x.isNaN = true := congrArg UnpackedFloat.isNaN hx
    exact Or.inr (Or.inl ⟨eq_of_unpack_eq hx, if_pos hnan⟩)
  · have hnan : x.isNaN = false := congrArg UnpackedFloat.isNaN hx
    have hinf : x.isInf = true := congrArg UnpackedFloat.isInf hx
    rw [Writer.realWord, hnan, if_neg (by decide), if_pos hinf]
    cases s with
    | positive =>
      have hlt : ¬ x < 0 := not_lt_zero_iff.mpr (hx ▸ .infinity)
      exact Or.inr (Or.inr (Or.inl ⟨eq_of_unpack_eq hx, if_neg hlt⟩))
    | negative =>
      have hlt : x < 0 := by
        by_contra hlt
        have hnegative := not_lt_zero_iff.mp hlt
        rw [hx] at hnegative
        cases hnegative
      exact Or.inr (Or.inr (Or.inr ⟨eq_of_unpack_eq hx, if_pos hlt⟩))

/-- A real number is read as it was written. -/
theorem atom_realWord (x : Float) (h : Stops rest) :
    atom ((Writer.realWord x).toList ++ rest) = .ok (.float x, rest) := by
  rcases realWord_cases x with ⟨b, hb, hword⟩ | ⟨hx, hword⟩ | ⟨hx, hword⟩ | ⟨hx, hword⟩
  · obtain ⟨p, hp, htext, hreal, hvalue⟩ := exists_realParts hb
    rw [hword, htext, List.append_assoc, atom_text hp, number_text hp _ h, if_neg hreal, hvalue]
  all_goals
    rw [hword, hx]
    rfl

end Json.Reader

end CodeAtlas
