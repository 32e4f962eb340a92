import CodeAtlas.Text.Part
import Mathlib.Data.List.Basic

/-!
# Texts cut and joined

* `hasPart_iff`: a text holds another as a part.
* `splitOn_joinWith`, `not_mem_pieces`: cutting a text undoes joining, and leaves no separator.
* `exists_first`, `exists_last`: the ends of a joined text.
* `replaceChar_joinWith`: a character of the separator replaced.
-/

namespace CodeAtlas.Text

theorem partIn_iff {part cs : List Char} : partIn part cs = true ↔ part <:+: cs := by
  induction cs with
  | nil => rw [partIn, List.isEmpty_iff, List.infix_nil]
  | cons c cs ih =>
    rw [partIn, Bool.or_eq_true, ih, List.isPrefixOf_iff_prefix, List.infix_cons_iff]

theorem hasPart_iff {s part : String} : hasPart s part = true ↔ part.toList <:+: s.toList :=
  partIn_iff

variable (sep : Char) {p : String} (old new : Char) {parts : List String} {s : String}

theorem pieces_eq_splitOn (cs : List Char) : pieces sep cs = cs.splitOn sep := by
  induction cs with
  | nil => simp [pieces]
  | cons c cs ih =>
    rw [pieces, List.splitOn_cons_eq_if_modifyHead, ih]
    by_cases hc : c = sep
    · simp [hc]
    · rw [if_neg hc, if_neg (by simpa using hc)]
      cases hs : cs.splitOn sep with
      | nil => exact absurd hs (List.splitOn_ne_nil sep cs)
      | cons p ps => rfl

theorem not_mem_pieces {sep : Char} {cs piece : List Char} (h : piece ∈ pieces sep cs) :
    sep ∉ piece := by
  induction cs generalizing piece with
  | nil =>
    rw [pieces, List.mem_singleton] at h
    rw [h]
    exact List.not_mem_nil
  | cons c cs ih =>
    rw [pieces] at h
    split at h
    · rcases List.mem_cons.mp h with rfl | h
      · exact List.not_mem_nil
      · exact ih h
    · rename_i hne
      split at h
      · rw [List.mem_singleton] at h
        rw [h, List.mem_singleton]
        exact Ne.symm hne
      · rename_i first rest hpieces
        rw [hpieces] at ih
        rcases List.mem_cons.mp h with rfl | h
        · rw [List.mem_cons, not_or]
          exact ⟨Ne.symm hne, ih List.mem_cons_self⟩
        · exact ih (List.mem_cons_of_mem _ h)

theorem toList_joinWith (parts : List String) :
    (joinWith (String.singleton sep) parts).toList =
      [sep].intercalate (parts.map String.toList) := by
  simp [joinWith]

theorem splitOn_joinWith (hne : parts ≠ []) (h : ∀ p ∈ parts, '/' ∉ p.toList) :
    splitOn '/' (joinWith "/" parts) = parts := by
  have hslash : "/" = String.singleton '/' := rfl
  rw [splitOn, hslash, toList_joinWith, pieces_eq_splitOn, List.splitOn_intercalate]
  · simp [Function.comp_def]
  · simpa using h
  · simpa using hne

theorem joinWith_cons {rest : List String} (p : String) (hrest : rest ≠ []) :
    joinWith "/" (p :: rest) = p ++ "/" ++ joinWith "/" rest :=
  String.intercalate_cons_of_ne_nil hrest

theorem joinWith_append {front back : List String} (hfront : front ≠ []) (hback : back ≠ []) :
    joinWith "/" (front ++ back) = joinWith "/" front ++ "/" ++ joinWith "/" back :=
  String.intercalate_append_of_ne_nil hfront hback

theorem exists_cons_of_ne_empty (h : s ≠ "") : ∃ c cs, s.toList = c :: cs := by
  refine List.exists_cons_of_ne_nil fun hnil => h ?_
  exact String.toList_inj.mp hnil

theorem exists_first (hne : p ≠ "") (hp : '/' ∉ p.toList) (rest : List String) :
    ∃ c cs, (joinWith "/" (p :: rest)).toList = c :: cs ∧ c ≠ '/' := by
  obtain ⟨c, cs, hcs⟩ := exists_cons_of_ne_empty hne
  have hc : c ≠ '/' := fun hc => hp (by simp [hcs, hc])
  cases rest with
  | nil => exact ⟨c, cs, by simpa [joinWith] using hcs, hc⟩
  | cons q rest =>
    rw [joinWith_cons p (by simp)]
    exact ⟨c, cs ++ '/' :: (joinWith "/" (q :: rest)).toList, by simp [hcs], hc⟩

theorem exists_last (hne : p ≠ "") (hp : '/' ∉ p.toList) (front : List String) :
    ∃ cs c, (joinWith "/" (front ++ [p])).toList = cs ++ [c] ∧ c ≠ '/' := by
  obtain ⟨cs, c, hcs⟩ : ∃ cs c, p.toList = cs ++ [c] := by
    rcases List.eq_nil_or_concat' p.toList with hnil | hconcat
    · exact absurd (String.toList_inj.mp hnil) hne
    · exact hconcat
  have hc : c ≠ '/' := fun hc => hp (by simp [hcs, hc])
  cases front with
  | nil => exact ⟨cs, c, by simpa [joinWith] using hcs, hc⟩
  | cons q front =>
    rw [joinWith_append (by simp) (by simp)]
    exact ⟨(joinWith "/" (q :: front)).toList ++ '/' :: cs, c, by simp [joinWith, hcs], hc⟩

theorem joinWith_isEmpty (hmem : p ∈ parts) (hne : p ≠ "") :
    (joinWith "/" parts).isEmpty = false := by
  rw [← Bool.not_eq_true, String.isEmpty_iff]
  cases parts with
  | nil => cases hmem
  | cons q rest =>
    cases rest with
    | nil => simpa [joinWith, ← List.mem_singleton.mp hmem] using hne
    | cons r rest =>
      intro hempty
      rw [joinWith_cons q (by simp), ← String.toList_inj] at hempty
      simp at hempty

theorem replaceChar_append (s t : String) :
    replaceChar old new (s ++ t) = replaceChar old new s ++ replaceChar old new t := by
  simp [replaceChar]

theorem replaceChar_of_notMem {old : Char} (new : Char) (h : old ∉ s.toList) :
    replaceChar old new s = s := by
  have hkept : ∀ c ∈ s.toList, (if c = old then new else c) = c := by
    intro c hc
    rw [if_neg]
    rintro rfl
    exact h hc
  rw [replaceChar, List.map_congr_left hkept, List.map_id', String.ofList_toList]

theorem replaceChar_joinWith (sep : String) (h : ∀ p ∈ parts, old ∉ p.toList) :
    replaceChar old new (joinWith sep parts) = joinWith (replaceChar old new sep) parts := by
  induction parts with
  | nil => rfl
  | cons p rest ih =>
    have hp := replaceChar_of_notMem new (h p List.mem_cons_self)
    cases rest with
    | nil => simpa [joinWith] using hp
    | cons q rest =>
      have hrest := ih fun r hr => h r (List.mem_cons_of_mem p hr)
      rw [joinWith, joinWith, String.intercalate_cons_cons, String.intercalate_cons_cons,
        replaceChar_append, replaceChar_append, hp]
      exact congrArg (p ++ replaceChar old new sep ++ ·) hrest

end CodeAtlas.Text
