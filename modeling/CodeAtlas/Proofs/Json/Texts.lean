import CodeAtlas.Json.Reader
import CodeAtlas.Json.Writer
import Mathlib

/-!
# Texts between quotes

A character is written plainly, by a letter behind a backslash, or by its 16-bit units. No character
is itself a surrogate, so the units tell where a pair stands.

* **`Json.Reader.text?_escaped`**: a text is read as it was written.
-/

namespace CodeAtlas.Json

def unitsOf (c : Char) : List ℕ :=
  if c.toNat < 0x10000 then [c.toNat]
  else [0xD800 + (c.toNat - 0x10000) / 1024, 0xDC00 + (c.toNat - 0x10000) % 1024]

theorem unitsOf_ne_nil (c : Char) : unitsOf c ≠ [] := by
  unfold unitsOf
  split_ifs <;> exact List.cons_ne_nil _ _

/-- The characters that are written by a letter behind a backslash. -/
def Writer.lettered : List Char := ['"', '\\', '\n', '\r', '\t', '\x08', '\x0c']

theorem Writer.escape_of_notMem {c : Char} (h : c ∉ lettered) :
    Writer.escape c = if 32 ≤ c.toNat ∧ c.toNat < 127 then [c]
      else (unitsOf c).flatMap Writer.unitEscape := by
  have hne (d : Char) (hd : d ∈ lettered) : ¬ (c == d) = true := fun hc =>
    h (eq_of_beq hc ▸ hd)
  rw [Writer.escape, if_neg (hne '"' (by decide)), if_neg (hne '\\' (by decide)),
    if_neg (hne '\n' (by decide)), if_neg (hne '\r' (by decide)), if_neg (hne '\t' (by decide)),
    if_neg (hne '\x08' (by decide)), if_neg (hne '\x0c' (by decide)), unitsOf]
  simp only [Bool.and_eq_true, decide_eq_true_eq]
  refine if_congr Iff.rfl rfl ?_
  split_ifs <;> simp

/-- A character is written plainly, by a letter behind a backslash, or by its units. -/
theorem Writer.escape_cases (c : Char) :
    (Writer.escape c = [c] ∧ c ≠ '"' ∧ c ≠ '\\' ∧ 32 ≤ c.toNat ∧ c.toNat < 127) ∨
    (∃ e, Writer.escape c = ['\\', e] ∧ Reader.escape? e = some c ∧ c.toNat < 0x10000) ∨
    Writer.escape c = (unitsOf c).flatMap Writer.unitEscape := by
  by_cases hletter : c ∈ lettered
  · fin_cases hletter <;> exact Or.inr (Or.inl ⟨_, rfl, rfl, by decide⟩)
  · have hescape := escape_of_notMem hletter
    split_ifs at hescape with hplain
    · refine Or.inl ⟨hescape, ?_, ?_, hplain⟩ <;> rintro rfl <;> exact hletter (by decide)
    · exact Or.inr (Or.inr hescape)

namespace Reader

theorem hexDigit?_hexDigit : ∀ n < 16, hexDigit? (Writer.hexDigit n) = some n := by
  decide

theorem hex4?_units {n : ℕ} (hn : n < 0x10000) :
    hex4? (Writer.hexDigit (n / 4096 % 16)) (Writer.hexDigit (n / 256 % 16))
      (Writer.hexDigit (n / 16 % 16)) (Writer.hexDigit (n % 16)) = some n := by
  have hdigit : ∀ k, hexDigit? (Writer.hexDigit (k % 16)) = some (k % 16) := fun k =>
    hexDigit?_hexDigit _ (Nat.mod_lt k (by decide))
  rw [hex4?, hdigit, hdigit, hdigit, hdigit]
  simp only [Option.bind_eq_bind, Option.bind_some, Option.pure_def, Option.some_inj]
  omega

theorem units?_unitEscape {n : ℕ} (hn : n < 0x10000) (rest : List Char) (acc : List ℕ) :
    units? (Writer.unitEscape n ++ rest) acc = units? rest (n :: acc) := by
  simp only [Writer.unitEscape, List.cons_append, List.nil_append]
  rw [units?, hex4?_units hn]

theorem units?_units {us : List ℕ} (h : ∀ u ∈ us, u < 0x10000) (rest : List Char) (acc : List ℕ) :
    units? (us.flatMap Writer.unitEscape ++ rest) acc = units? rest (us.reverse ++ acc) := by
  induction us generalizing acc with
  | nil => rfl
  | cons u us ih =>
    rw [List.forall_mem_cons] at h
    rw [List.flatMap_cons, List.append_assoc, units?_unitEscape h.1, ih h.2, List.reverse_cons,
      List.append_assoc, List.singleton_append]

theorem toNat_cases (c : Char) :
    c.toNat < 0xD800 ∨ 0xE000 ≤ c.toNat ∧ c.toNat < 0x110000 := by
  have hvalid := c.valid
  simp only [UInt32.isValidChar, Nat.isValidChar] at hvalid
  have hval : c.toNat = c.val.toNat := rfl
  omega

theorem unitsOf_lt (c : Char) : ∀ u ∈ unitsOf c, u < 0x10000 := by
  have hcases := toNat_cases c
  unfold unitsOf
  split_ifs
  · simpa
  · simp only [List.mem_cons, List.not_mem_nil, or_false, forall_eq_or_imp, forall_eq]
    omega

theorem units?_escape (c : Char) (rest : List Char) (acc : List ℕ) :
    units? (Writer.escape c ++ rest) acc = units? rest ((unitsOf c).reverse ++ acc) := by
  rcases Writer.escape_cases c with ⟨hc, hquote, hback, hlow, hhigh⟩ | ⟨e, hc, he, hsmall⟩ | hc
  · have hplain : ¬ ((decide (c.toNat < 32) || c == '\\') = true) := by
      simp [hback]
      omega
    rw [hc, unitsOf, if_pos (by omega), List.singleton_append, units?, if_neg hplain]
    · rfl
    · exact hquote
    · exact fun _ _ _ _ _ hc _ => hback hc
    · exact fun _ _ hc _ => hback hc
  · rw [hc, unitsOf, if_pos hsmall, List.cons_append, List.singleton_append, units?, he]
    · rfl
    · rintro _ _ _ _ _ rfl
      cases he
  · rw [hc]
    exact units?_units (unitsOf_lt c) rest acc

theorem units?_escaped (cs rest : List Char) (acc : List ℕ) :
    units? (cs.flatMap Writer.escape ++ '"' :: rest) acc =
      some (acc.reverse ++ cs.flatMap unitsOf, rest) := by
  induction cs generalizing acc with
  | nil => simp [units?]
  | cons c cs ih =>
    rw [List.flatMap_cons, List.append_assoc, units?_escape, ih]
    simp

theorem joinPairs_unitsOf (c : Char) (us : List ℕ) :
    joinPairs (unitsOf c ++ us) = c :: joinPairs us := by
  have hcases := toNat_cases c
  unfold unitsOf
  split_ifs with hsmall
  · have hsingle : ¬ ((decide (0xD800 ≤ c.toNat) && decide (c.toNat < 0xE000)) = true) := by
      simp
      omega
    have hpair : ∀ m, ¬ ((decide (0xD800 ≤ c.toNat) && decide (c.toNat < 0xDC00) &&
        decide (0xDC00 ≤ m) && decide (m < 0xE000)) = true) := fun m => by
      simp
      omega
    cases us with
    | nil => simp [joinPairs, hsingle]
    | cons m us => simp [joinPairs, hsingle, hpair]
  · have hpair : (decide (0xD800 ≤ 0xD800 + (c.toNat - 0x10000) / 1024) &&
        decide (0xD800 + (c.toNat - 0x10000) / 1024 < 0xDC00) &&
        decide (0xDC00 ≤ 0xDC00 + (c.toNat - 0x10000) % 1024) &&
        decide (0xDC00 + (c.toNat - 0x10000) % 1024 < 0xE000)) = true := by
      simp
      omega
    have hnat : 0x10000 + (0xD800 + (c.toNat - 0x10000) / 1024 - 0xD800) * 1024 +
        (0xDC00 + (c.toNat - 0x10000) % 1024 - 0xDC00) = c.toNat := by omega
    rw [List.cons_append, List.singleton_append, joinPairs, if_pos hpair, hnat, Char.ofNat_toNat]

theorem text?_escaped (s : String) (rest : List Char) :
    text? (s.toList.flatMap Writer.escape ++ '"' :: rest) = some (s, rest) := by
  have hjoin : ∀ cs : List Char, joinPairs (cs.flatMap unitsOf) = cs := fun cs => by
    induction cs with
    | nil => rfl
    | cons c cs ih => rw [List.flatMap_cons, joinPairs_unitsOf, ih]
  rw [text?, units?_escaped, Option.map_some, List.reverse_nil, List.nil_append]
  dsimp only
  rw [hjoin, String.ofList_toList]

end Reader

end CodeAtlas.Json
