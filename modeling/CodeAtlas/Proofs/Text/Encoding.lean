import CodeAtlas.Text.Utf8
import Mathlib.Data.List.Basic

/-!
# Text and its bytes

The strict reading undoes the encoding and accepts nothing else: no character in more bytes than it
needs, no surrogate, nothing beyond the last character.

* **`strict?_eq_some_iff`**: bytes are read as the text whose bytes they are.
-/

namespace CodeAtlas.Utf8

open String (utf8EncodeChar)

/-! ## Bytes of a character -/

def tailByte (v : Nat) : UInt8 := UInt8.ofNat (v % 64 + 128)

variable (v : Nat) {b : UInt8} {n : Nat}

theorem ofNat_low : UInt8.ofNat (v % 64 + 128) = tailByte v := rfl

theorem toNat_tailByte : (tailByte v).toNat = v % 64 + 128 := by
  simp only [tailByte, UInt8.toNat_ofNat']
  omega

theorem isTail_iff : isTail b = true ↔ 0x80 ≤ b.toNat ∧ b.toNat ≤ 0xBF := by
  simp [isTail, UInt8.le_iff_toNat_le]

theorem isTail_tailByte : isTail (tailByte v) = true := by
  rw [isTail_iff, toNat_tailByte]
  omega

theorem tailBits_tailByte : tailBits (tailByte v) = v % 64 := by
  rw [tailBits, toNat_tailByte]
  omega

theorem eq_tailByte {v : Nat} (hb : isTail b = true) (hv : v % 64 = tailBits b) :
    b = tailByte v := by
  rw [isTail_iff] at hb
  rw [UInt8.ext_iff, toNat_tailByte, hv, tailBits]
  omega

theorem tailBits_lt (b : UInt8) : tailBits b < 64 := Nat.mod_lt _ (by decide)

theorem ofNat_eq {a : UInt8} (h : n = a.toNat) : UInt8.ofNat n = a := by
  rw [h, UInt8.ofNat_toNat]

theorem val_ofNat (h : n.isValidChar) : (Char.ofNat n).val.toNat = n := by
  rw [Char.ofNat, dif_pos h]
  rfl

/-! ## The first character -/

/-- The bytes open with the number `v`, encoded with `more` bytes after the first. -/
inductive Opens : List UInt8 → Nat → Nat → Prop
  | one {a : UInt8} {rest : List UInt8} {v : Nat} (ha : a < 0x80) (hv : v = a.toNat) :
      Opens (a :: rest) v 0
  | two {a b : UInt8} {rest : List UInt8} {v : Nat} (ha : 0xC2 ≤ a ∧ a ≤ 0xDF)
      (hb : isTail b = true) (hv : v = a.toNat % 32 * 64 + tailBits b) : Opens (a :: b :: rest) v 1
  | three {a b c : UInt8} {rest : List UInt8} {v : Nat} (ha : 0xE0 ≤ a ∧ a ≤ 0xEF)
      (hb : isTail b = true) (hc : isTail c = true) (hlow : a = 0xE0 → 0xA0 ≤ b)
      (hhigh : a = 0xED → b ≤ 0x9F)
      (hv : v = (a.toNat % 16 * 64 + tailBits b) * 64 + tailBits c) :
      Opens (a :: b :: c :: rest) v 2
  | four {a b c d : UInt8} {rest : List UInt8} {v : Nat} (ha : 0xF0 ≤ a ∧ a ≤ 0xF4)
      (hb : isTail b = true) (hc : isTail c = true) (hd : isTail d = true)
      (hlow : a = 0xF0 → 0x90 ≤ b) (hhigh : a = 0xF4 → b ≤ 0x8F)
      (hv : v = ((a.toNat % 8 * 64 + tailBits b) * 64 + tailBits c) * 64 + tailBits d) :
      Opens (a :: b :: c :: d :: rest) v 3

/-- A second byte is a tail, with a further bound where the first byte asks it. -/
theorem between_iff {p q : Prop} [Decidable p] [Decidable q] {b low high : UInt8}
    (hlow : 0x80 ≤ low) (hhigh : high ≤ 0xBF) :
    (if p then low else 0x80) ≤ b ∧ b ≤ (if q then high else 0xBF) ↔
      isTail b = true ∧ (p → low ≤ b) ∧ (q → b ≤ high) := by
  rw [isTail, Bool.and_eq_true, decide_eq_true_eq, decide_eq_true_eq]
  constructor
  · rintro ⟨h, h'⟩
    split_ifs at h h' with hp hq hq
    · exact ⟨⟨UInt8.le_trans hlow h, UInt8.le_trans h' hhigh⟩, fun _ => h, fun _ => h'⟩
    · exact ⟨⟨UInt8.le_trans hlow h, h'⟩, fun _ => h, fun h => absurd h hq⟩
    · exact ⟨⟨h, UInt8.le_trans h' hhigh⟩, fun h => absurd h hp, fun _ => h'⟩
    · exact ⟨⟨h, h'⟩, fun h => absurd h hp, fun h => absurd h hq⟩
  · rintro ⟨⟨h, h'⟩, hp, hq⟩
    constructor
    · split_ifs with hc
      · exact hp hc
      · exact h
    · split_ifs with hc
      · exact hq hc
      · exact h'

section Opens

variable {bytes : List UInt8} {v more : Nat} {c : Char}

theorem first?_of_opens (h : Opens bytes v more) :
    first? bytes = some (Char.ofNat v, more) := by
  cases h with
  | one ha hv => simp [first?, ha, hv]
  | @two a b _ _ ha hb hv =>
    have : ¬ a < 0x80 := UInt8.not_lt.mpr (UInt8.le_trans (by decide) ha.1)
    simp [first?, this, ha, hb, hv]
  | @three a b c _ _ ha hb hc hlow hhigh hv =>
    have h₁ : ¬ a < 0x80 := UInt8.not_lt.mpr (UInt8.le_trans (by decide) ha.1)
    have h₂ : ¬ a ≤ 0xDF := UInt8.not_le.mpr (UInt8.lt_of_lt_of_le (by decide) ha.1)
    have hb := (between_iff (by decide) (by decide)).mpr ⟨hb, hlow, hhigh⟩
    simp [first?, h₁, h₂, ha, hc, hb, hv]
  | @four a b c d _ _ ha hb hc hd hlow hhigh hv =>
    have h₁ : ¬ a < 0x80 := UInt8.not_lt.mpr (UInt8.le_trans (by decide) ha.1)
    have h₂ : ¬ a ≤ 0xDF := UInt8.not_le.mpr (UInt8.lt_of_lt_of_le (by decide) ha.1)
    have h₃ : ¬ a ≤ 0xEF := UInt8.not_le.mpr (UInt8.lt_of_lt_of_le (by decide) ha.1)
    have hb := (between_iff (by decide) (by decide)).mpr ⟨hb, hlow, hhigh⟩
    simp [first?, h₁, h₂, h₃, ha, hc, hd, hb, hv]

theorem opens_of_first?
    (h : first? bytes = some (c, more)) : ∃ v, Opens bytes v more ∧ c = Char.ofNat v := by
  revert h
  fun_cases first? bytes with
  | case2 a rest ha =>
    rintro ⟨⟩
    exact ⟨_, .one ha rfl, rfl⟩
  | case4 a _ b rest ha hb =>
    rintro ⟨⟩
    rw [Bool.and_eq_true, decide_eq_true_eq, decide_eq_true_eq] at ha
    exact ⟨_, .two ha hb rfl, rfl⟩
  | case7 a _ b _ c rest ha low high h =>
    rintro ⟨⟩
    simp only [Bool.and_eq_true, decide_eq_true_eq] at ha h
    obtain ⟨hb, hlow, hhigh⟩ := (between_iff (by decide) (by decide)).mp h.1
    exact ⟨_, .three ha hb h.2 (by simpa using hlow) (by simpa using hhigh) rfl, rfl⟩
  | case10 a _ b _ c _ d rest low high h =>
    rintro ⟨⟩
    simp only [Bool.and_eq_true, decide_eq_true_eq] at h
    obtain ⟨⟨⟨⟨ha, hlow⟩, hhigh⟩, hc⟩, hd⟩ := h
    obtain ⟨hb, hlow, hhigh⟩ := (between_iff (by decide) (by decide)).mp ⟨hlow, hhigh⟩
    exact ⟨_, .four ha hb hc hd (by simpa using hlow) (by simpa using hhigh) rfl, rfl⟩
  | _ => exact nofun

theorem opens_utf8EncodeChar (c : Char) (rest : List UInt8) :
    Opens (utf8EncodeChar c ++ rest) c.val.toNat ((utf8EncodeChar c).length - 1) := by
  have hv := c.valid
  simp only [UInt32.isValidChar, Nat.isValidChar] at hv
  simp only [utf8EncodeChar, ofNat_low]
  generalize c.val.toNat = v at hv ⊢
  split_ifs with h₁ h₂ h₃
  · have ha := UInt8.toNat_ofNat_of_lt' (show v < 256 by omega)
    refine .one ?_ ha.symm
    rw [UInt8.lt_iff_toNat_lt, ha]
    exact Nat.lt_succ_of_le h₁
  · have ha := UInt8.toNat_ofNat_of_lt' (show v / 64 % 32 + 192 < 256 by omega)
    refine .two ?_ (isTail_tailByte v) ?_
    · simp only [UInt8.le_iff_toNat_le, ha, UInt8.reduceToNat]
      omega
    · rw [ha, tailBits_tailByte]
      omega
  · have ha := UInt8.toNat_ofNat_of_lt' (show v / 4096 % 16 + 224 < 256 by omega)
    refine .three ?_ (isTail_tailByte _) (isTail_tailByte v) ?_ ?_ ?_
    · simp only [UInt8.le_iff_toNat_le, ha, UInt8.reduceToNat]
      omega
    · simp only [UInt8.le_iff_toNat_le, UInt8.ext_iff, ha, toNat_tailByte, UInt8.reduceToNat]
      omega
    · simp only [UInt8.le_iff_toNat_le, UInt8.ext_iff, ha, toNat_tailByte, UInt8.reduceToNat]
      omega
    · rw [ha, tailBits_tailByte, tailBits_tailByte]
      omega
  · have ha := UInt8.toNat_ofNat_of_lt' (show v / 262144 % 8 + 240 < 256 by omega)
    refine .four ?_ (isTail_tailByte _) (isTail_tailByte _) (isTail_tailByte v) ?_ ?_ ?_
    · simp only [UInt8.le_iff_toNat_le, ha, UInt8.reduceToNat]
      omega
    · simp only [UInt8.le_iff_toNat_le, UInt8.ext_iff, ha, toNat_tailByte, UInt8.reduceToNat]
      omega
    · simp only [UInt8.le_iff_toNat_le, UInt8.ext_iff, ha, toNat_tailByte, UInt8.reduceToNat]
      omega
    · rw [ha, tailBits_tailByte, tailBits_tailByte, tailBits_tailByte]
      omega

theorem Opens.isValidChar (h : Opens bytes v more) :
    v.isValidChar := by
  rw [Nat.isValidChar]
  cases h with
  | one ha hv =>
    simp only [UInt8.lt_iff_toNat_lt, UInt8.reduceToNat] at ha
    omega
  | @two a b _ _ ha hb hv =>
    have := tailBits_lt b
    omega
  | @three a b c _ _ ha hb hc hlow hhigh hv =>
    simp only [UInt8.le_iff_toNat_le, UInt8.ext_iff, UInt8.reduceToNat] at ha hlow hhigh
    rw [isTail_iff] at hb
    have := tailBits_lt c
    simp only [tailBits] at hv this
    omega
  | @four a b c d _ _ ha hb hc hd hlow hhigh hv =>
    simp only [UInt8.le_iff_toNat_le, UInt8.ext_iff, UInt8.reduceToNat] at ha hlow hhigh
    rw [isTail_iff] at hb
    simp only [tailBits] at hv
    omega

theorem utf8EncodeChar_of_opens (h : Opens bytes v more) :
    utf8EncodeChar (Char.ofNat v) = bytes.take (more + 1) ∧ more + 1 ≤ bytes.length := by
  have hvalid := h.isValidChar
  simp only [utf8EncodeChar, val_ofNat hvalid, ofNat_low]
  cases h with
  | @one a rest _ ha hv =>
    simp only [UInt8.lt_iff_toNat_lt, UInt8.reduceToNat] at ha
    rw [if_pos (by omega), ofNat_eq hv]
    simp
  | @two a b rest _ ha hb hv =>
    simp only [UInt8.le_iff_toNat_le, UInt8.reduceToNat] at ha
    have := tailBits_lt b
    rw [if_neg (by omega), if_pos (by omega), ofNat_eq (a := a) (by omega),
      ← eq_tailByte hb (by omega)]
    simp
  | @three a b c rest _ ha hb hc hlow hhigh hv =>
    simp only [UInt8.le_iff_toNat_le, UInt8.ext_iff, UInt8.reduceToNat] at ha hlow hhigh
    have hb' := isTail_iff.mp hb
    have hbb : tailBits b = b.toNat % 64 := rfl
    have := tailBits_lt c
    rw [if_neg (by omega), if_neg (by omega), if_pos (by omega), ofNat_eq (a := a) (by omega),
      ← eq_tailByte hb (by omega), ← eq_tailByte hc (by omega)]
    simp
  | @four a b c d rest _ ha hb hc hd hlow hhigh hv =>
    simp only [UInt8.le_iff_toNat_le, UInt8.ext_iff, UInt8.reduceToNat] at ha hlow hhigh
    have hb' := isTail_iff.mp hb
    have hbb : tailBits b = b.toNat % 64 := rfl
    have := tailBits_lt c
    have := tailBits_lt d
    rw [if_neg (by omega), if_neg (by omega), if_neg (by omega), ofNat_eq (a := a) (by omega),
      ← eq_tailByte hb (by omega), ← eq_tailByte hc (by omega), ← eq_tailByte hd (by omega)]
    simp

/-- **The first character** of bytes is the one whose encoding they begin with. -/
theorem first?_eq_some_iff :
    first? bytes = some (c, more) ↔
      ∃ rest, bytes = utf8EncodeChar c ++ rest ∧ (utf8EncodeChar c).length = more + 1 := by
  constructor
  · intro h
    obtain ⟨v, hv, rfl⟩ := opens_of_first? h
    obtain ⟨he, hl⟩ := utf8EncodeChar_of_opens hv
    refine ⟨bytes.drop (more + 1), ?_, ?_⟩
    · rw [he, List.take_append_drop]
    · rw [he, List.length_take, Nat.min_eq_left hl]
  · rintro ⟨rest, rfl, hl⟩
    have h := first?_of_opens (opens_utf8EncodeChar c rest)
    rwa [hl, Nat.add_sub_cancel, show Char.ofNat c.val.toNat = c from Char.ofNat_toNat c] at h

/-! ## The whole text -/

theorem strictFrom_eq_drop (skip : Nat) (bytes : List UInt8) :
    strictFrom skip bytes = strictFrom 0 (bytes.drop skip) := by
  induction skip generalizing bytes with
  | zero => rfl
  | succ skip ih =>
    cases bytes with
    | nil => rfl
    | cons b rest => exact ih rest

theorem strictFrom_cons_iff {cs : List Char} :
    strictFrom 0 bytes = some (c :: cs) ↔
      ∃ rest, bytes = utf8EncodeChar c ++ rest ∧ strictFrom 0 rest = some cs := by
  cases bytes with
  | nil => simp [strictFrom]
  | cons a tail =>
    have hstep : strictFrom 0 (a :: tail) = some (c :: cs) ↔
        ∃ more, first? (a :: tail) = some (c, more) ∧ strictFrom more tail = some cs := by
      simp only [strictFrom]
      split
      next c' more hf => simp [hf, and_assoc, and_comm]
      next hf => simp [hf]
    have hdrop {rest : List UInt8} {more : Nat} (hb : a :: tail = utf8EncodeChar c ++ rest)
        (hl : (utf8EncodeChar c).length = more + 1) : tail.drop more = rest := by
      rw [← List.drop_succ_cons (a := a), hb, List.drop_left' hl]
    simp only [hstep, first?_eq_some_iff]
    constructor
    · rintro ⟨more, ⟨rest, hb, hl⟩, hs⟩
      rw [strictFrom_eq_drop, hdrop hb hl] at hs
      exact ⟨rest, hb, hs⟩
    · rintro ⟨rest, hb, hs⟩
      obtain ⟨more, hl⟩ :=
        Nat.exists_eq_add_one.mpr (List.length_pos_iff.mpr (String.utf8EncodeChar_ne_nil (c := c)))
      refine ⟨more, ⟨rest, hb, hl⟩, ?_⟩
      rw [strictFrom_eq_drop, hdrop hb hl, hs]

end Opens

/-- **Bytes are read** as the characters whose encodings they are made of. -/
theorem strictFrom_eq_some_iff {cs : List Char} {bytes : List UInt8} :
    strictFrom 0 bytes = some cs ↔ bytes = cs.flatMap utf8EncodeChar := by
  induction cs generalizing bytes with
  | nil =>
    cases bytes with
    | nil => simp [strictFrom]
    | cons a rest =>
      simp only [strictFrom, List.flatMap_nil, reduceCtorEq, iff_false]
      split <;> simp
  | cons c cs ih => simp only [strictFrom_cons_iff, ih, List.flatMap_cons, exists_eq_right]

theorem toList_loop_eq (b : ByteArray) (i : Nat) (read : List UInt8) :
    ByteArray.toList.loop b i read = read.reverse ++ b.data.toList.drop i := by
  fun_induction ByteArray.toList.loop b i read with
  | case1 i read h ih =>
    rw [ih, List.reverse_cons, List.append_assoc, List.singleton_append,
      List.drop_eq_getElem_cons (show i < b.data.toList.length from h)]
    simp [ByteArray.get!, h]
  | case2 i read h =>
    rw [List.drop_eq_nil_of_le (Nat.le_of_not_lt h), List.append_nil]

theorem bytes_eq_flatMap (s : String) : bytes s = s.toList.flatMap utf8EncodeChar := by
  rw [bytes, String.toUTF8_eq_toByteArray, ← String.utf8Encode_toList, List.utf8Encode,
    ByteArray.toList, toList_loop_eq, List.toList_data_toByteArray]
  rfl

/-- **The strict reading** of bytes is the text whose bytes they are. -/
theorem strict?_eq_some_iff {b : List UInt8} {s : String} :
    strict? b = some s ↔ bytes s = b := by
  rw [strict?, Option.map_eq_some_iff, bytes_eq_flatMap]
  constructor
  · rintro ⟨cs, h, rfl⟩
    rw [String.toList_ofList, strictFrom_eq_some_iff.mp h]
  · rintro rfl
    exact ⟨s.toList, strictFrom_eq_some_iff.mpr rfl, String.ofList_toList⟩

end CodeAtlas.Utf8
