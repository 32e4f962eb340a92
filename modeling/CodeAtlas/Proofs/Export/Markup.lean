import CodeAtlas.Proofs.Json.RoundTrip

/-!
# Markup in JSON text

Writing a text between quotes leaves its markup as it is and makes no new one, since an escape has
no `<`. Only markup with a control character, which is escaped, is in no line.

* **`Json.holdsPart_line_iff`**: markup in a line of JSON text.
-/

namespace CodeAtlas

open Json

/-! ## Parts of a list -/

section Parts

variable {α : Type} {part xs ys : List α} {a c : α}

theorem prefix_of_prefix_append_cons (hc : c ∉ part) (h : part <+: xs ++ c :: ys) :
    part <+: xs := by
  induction xs generalizing part with
  | nil =>
    cases part with
    | nil => exact List.nil_prefix
    | cons a part =>
      obtain ⟨rfl, -⟩ := List.cons_prefix_cons.mp h
      exact absurd List.mem_cons_self hc
  | cons x xs ih =>
    cases part with
    | nil => exact List.nil_prefix
    | cons a part =>
      obtain ⟨rfl, hrest⟩ := List.cons_prefix_cons.mp h
      exact List.cons_prefix_cons.mpr
        ⟨rfl, ih (fun hmem => hc (List.mem_cons_of_mem _ hmem)) hrest⟩

theorem infix_append_cons_iff (hc : c ∉ part) :
    part <:+: xs ++ c :: ys ↔ part <:+: xs ∨ part <:+: ys := by
  constructor
  · intro h
    induction xs with
    | nil =>
      rcases List.infix_cons_iff.mp h with hopen | hrest
      · have hopen : part <+: [] := prefix_of_prefix_append_cons hc hopen
        exact Or.inl hopen.isInfix
      · exact Or.inr hrest
    | cons x xs ih =>
      rcases List.infix_cons_iff.mp h with hopen | hrest
      · have hopen : part <+: x :: xs := prefix_of_prefix_append_cons hc hopen
        exact Or.inl hopen.isInfix
      · exact (ih hrest).imp_left fun h => List.infix_cons_iff.mpr (Or.inr h)
  · rintro (h | h)
    · exact h.trans (List.prefix_append _ _).isInfix
    · exact h.trans ((List.suffix_cons _ _).trans (List.suffix_append _ _)).isInfix

theorem infix_append_iff_of_notMem (ha : a ∉ xs) :
    a :: part <:+: xs ++ ys ↔ a :: part <:+: ys := by
  induction xs with
  | nil => exact Iff.rfl
  | cons x xs ih =>
    rw [List.mem_cons, not_or] at ha
    rw [List.cons_append, List.infix_cons_iff, ih ha.2, List.cons_prefix_cons]
    simp [ha.1]

theorem not_infix_of_notMem (ha : a ∉ xs) : ¬ a :: part <:+: xs := fun h =>
  ha (h.subset List.mem_cons_self)

end Parts

/-! ## Markup -/

def plainChars : List Char := ['<', '/', 's', 'c', 'r', 'i', 'p', 't', '!', '-', '>', ' ']

def controlChars : List Char := ['\t', '\n', '\x0c']

/-- The characters of tags and comments. -/
def markChars : List Char := plainChars ++ controlChars

/-- A piece of markup: it starts with `<`. -/
def IsMark (part : List Char) : Prop := part.head? = some '<' ∧ part ⊆ markChars

instance (part : List Char) : Decidable (IsMark part) :=
  inferInstanceAs (Decidable (part.head? = some '<' ∧ part ⊆ markChars))

/-- The part occurs in the characters, in letters of any case. -/
def HoldsPart (part cs : List Char) : Prop := part <:+: cs.map Char.toLower

instance (part cs : List Char) : Decidable (HoldsPart part cs) :=
  inferInstanceAs (Decidable (part <:+: cs.map Char.toLower))

section Marks

variable {c : Char} {part cs ds : List Char}

theorem toLower_cases (c : Char) :
    c.toLower = c ∨ (65 ≤ c.toNat ∧ c.toNat ≤ 90 ∧ c.toLower.toNat = c.toNat + 32) := by
  unfold Char.toLower
  split_ifs with h
  · have hlow : 65 ≤ c.val.toNat := UInt32.le_iff_toNat_le.mp h.1
    have hhigh : c.val.toNat ≤ 90 := UInt32.le_iff_toNat_le.mp h.2
    refine Or.inr ⟨hlow, hhigh, ?_⟩
    change (c.val + 32).toNat = c.val.toNat + 32
    rw [UInt32.toNat_add]
    change (c.val.toNat + 32) % 2 ^ 32 = _
    omega
  · exact Or.inl rfl

theorem eq_of_toLower_eq {d : Char} (hd : d.toNat < 97 ∨ 122 < d.toNat) (h : c.toLower = d) :
    c = d := by
  rcases toLower_cases c with hc | ⟨hlow, hhigh, hc⟩
  · rwa [hc] at h
  · rw [h] at hc
    omega

theorem IsMark.notMem (hpart : IsMark part) (hc : c ∉ markChars) : c ∉ part := fun hmem =>
  hc (hpart.2 hmem)

theorem IsMark.lt_mem (hpart : IsMark part) : '<' ∈ part := List.mem_of_head? hpart.1

theorem IsMark.not_holdsPart (hpart : IsMark part) (h : '<' ∉ cs) : ¬ HoldsPart part cs :=
  fun hcs => by
    obtain ⟨c, hc, hlower⟩ := List.mem_map.mp (hcs.subset hpart.lt_mem)
    exact h (eq_of_toLower_eq (Or.inl (by decide)) hlower ▸ hc)

theorem IsMark.not_holdsPart_nil (hpart : IsMark part) : ¬ HoldsPart part [] :=
  hpart.not_holdsPart List.not_mem_nil

theorem IsMark.holdsPart_append_cons (hpart : IsMark part) (hc : c.toLower ∉ markChars) :
    HoldsPart part (cs ++ c :: ds) ↔ HoldsPart part cs ∨ HoldsPart part ds := by
  rw [HoldsPart, List.map_append, List.map_cons]
  exact infix_append_cons_iff (hpart.notMem hc)

theorem IsMark.holdsPart_append (hpart : IsMark part) (hcs : '<' ∉ cs) :
    HoldsPart part (cs ++ ds) ↔ HoldsPart part ds := by
  obtain ⟨rest, rfl⟩ : ∃ rest, part = '<' :: rest := List.head?_eq_some_iff.mp hpart.1
  rw [HoldsPart, List.map_append]
  refine infix_append_iff_of_notMem fun hmem => hcs ?_
  obtain ⟨c, hc, hlower⟩ := List.mem_map.mp hmem
  rwa [← eq_of_toLower_eq (Or.inl (by decide)) hlower]

theorem IsMark.holdsPart_cons (hpart : IsMark part) (hc : c ≠ '<') :
    HoldsPart part (c :: cs) ↔ HoldsPart part cs :=
  hpart.holdsPart_append fun hmem => hc (List.mem_singleton.mp hmem).symm

theorem IsMark.holdsPart_concat (hpart : IsMark part) (hc : c.toLower ∉ markChars) :
    HoldsPart part (cs ++ [c]) ↔ HoldsPart part cs := by
  rw [hpart.holdsPart_append_cons hc, or_iff_left hpart.not_holdsPart_nil]

/-! ### Between quotes -/

/-- A character is written as it is, or as an escape of plain characters. -/
theorem escape_plain_or (c : Char) :
    (Writer.escape c = [c] ∧ 32 ≤ c.toNat) ∨
      ∃ more, Writer.escape c = '\\' :: more ∧ ∀ d ∈ more, 32 ≤ d.toNat ∧ d ≠ '<' := by
  rcases Writer.escape_cases c with ⟨hc, -, -, hlow, -⟩ | ⟨e, hc, he, -⟩ | hc
  · exact Or.inl ⟨hc, hlow⟩
  · refine Or.inr ⟨[e], hc, ?_⟩
    rw [List.forall_mem_singleton]
    unfold Reader.escape? at he
    split at he <;> first | decide | cases he
  · have hhex : ∀ n < 16, 32 ≤ (Writer.hexDigit n).toNat ∧ Writer.hexDigit n ≠ '<' := by decide
    have hdigit (k : ℕ) := hhex (k % 16) (Nat.mod_lt k (by decide))
    have hunit : ∀ n, ∀ d ∈ Writer.unitEscape n, 32 ≤ d.toNat ∧ d ≠ '<' := fun n => by
      simp [Writer.unitEscape, hdigit]
    have hall : ∀ d ∈ Writer.escape c, 32 ≤ d.toNat ∧ d ≠ '<' := fun d hd => by
      rw [hc, List.mem_flatMap] at hd
      obtain ⟨u, -, hu⟩ := hd
      exact hunit u d hu
    obtain ⟨u, us, hunits⟩ := List.exists_cons_of_ne_nil (unitsOf_ne_nil c)
    rw [hunits, List.flatMap_cons, Writer.unitEscape, List.cons_append] at hc
    rw [hc] at hall
    exact Or.inr ⟨_, hc, (List.forall_mem_cons.mp hall).2⟩

theorem escape_of_mem (h : c.toLower ∈ plainChars) : Writer.escape c = [c] := by
  have hplain : 32 ≤ c.toNat ∧ c.toNat ≤ 122 ∧ c.toNat ≠ 34 ∧ c.toNat ≠ 92 := by
    rcases toLower_cases c with hc | ⟨hlow, hhigh, -⟩
    · rw [hc] at h
      fin_cases h <;> decide
    · omega
  have hletter : c ∉ Writer.lettered := fun hc => by
    fin_cases hc <;> exact absurd hplain (by decide)
  rw [Writer.escape_of_notMem hletter, if_pos (by omega)]

theorem toLower_notMem {more : List Char} (hc : Writer.escape c = '\\' :: more) :
    c.toLower ∉ plainChars := fun hmem => by
  rw [escape_of_mem hmem, List.cons.injEq] at hc
  obtain ⟨rfl, -⟩ := hc
  exact absurd hmem (by decide)

theorem prefix_escaped_iff (hplain : part ⊆ plainChars) :
    part <+: (cs.flatMap Writer.escape).map Char.toLower ↔ part <+: cs.map Char.toLower := by
  induction cs generalizing part with
  | nil => rfl
  | cons c cs ih =>
    cases part with
    | nil => simp
    | cons a part =>
      obtain ⟨ha, hplain⟩ := List.cons_subset.mp hplain
      rcases escape_plain_or c with ⟨hc, -⟩ | ⟨more, hc, -⟩
      · rw [List.flatMap_cons, hc, List.singleton_append, List.map_cons, List.map_cons,
          List.cons_prefix_cons, List.cons_prefix_cons, ih hplain]
      · -- neither the backslash nor what it stands in front of is in the markup
        rw [List.flatMap_cons, hc, List.cons_append, List.map_cons, List.map_cons,
          List.cons_prefix_cons, List.cons_prefix_cons]
        constructor
        · rintro ⟨rfl, -⟩
          exact absurd ha (by decide)
        · rintro ⟨rfl, -⟩
          exact absurd ha (toLower_notMem hc)

theorem IsMark.holdsPart_escaped (hpart : IsMark part) (hplain : part ⊆ plainChars) :
    HoldsPart part (cs.flatMap Writer.escape) ↔ HoldsPart part cs := by
  induction cs with
  | nil => rfl
  | cons c cs ih =>
    rcases escape_plain_or c with ⟨hc, -⟩ | ⟨more, hc, hmore⟩
    · have hopen : part <+: ((c :: cs).flatMap Writer.escape).map Char.toLower ↔
          part <+: (c :: cs).map Char.toLower := prefix_escaped_iff hplain
      rw [List.flatMap_cons, hc, List.singleton_append] at hopen ⊢
      rw [HoldsPart, HoldsPart, List.map_cons, List.map_cons, List.infix_cons_iff,
        List.infix_cons_iff, ← List.map_cons, ← List.map_cons, hopen]
      exact or_congr_right ih
    · have hback : '<' ∉ '\\' :: more := by simpa using fun hmem => (hmore _ hmem).2 rfl
      have hlt : c ≠ '<' := by
        rintro rfl
        exact toLower_notMem hc (by decide)
      rw [List.flatMap_cons, hc, hpart.holdsPart_append hback, hpart.holdsPart_cons hlt]
      exact ih

theorem control_notMem_escaped (hc : c ∈ controlChars) : c ∉ cs.flatMap Writer.escape := by
  have hlow : c.toNat < 32 := by fin_cases hc <;> decide
  rw [List.mem_flatMap]
  rintro ⟨d, -, hmem⟩
  rcases escape_plain_or d with ⟨hd, hplain⟩ | ⟨more, hd, hmore⟩ <;> rw [hd] at hmem
  · rw [← List.mem_singleton.mp hmem] at hplain
    omega
  · rcases List.mem_cons.mp hmem with rfl | hmem
    · exact absurd hc (by decide)
    · exact absurd (hmore c hmem).1 (by omega)

theorem not_holdsPart_escaped (hc : c ∈ part) (hcontrol : c ∈ controlChars) :
    ¬ HoldsPart part (cs.flatMap Writer.escape) := fun h => by
  obtain ⟨d, hd, hlower⟩ := List.mem_map.mp (h.subset hc)
  obtain rfl : d = c := eq_of_toLower_eq (Or.inl (by fin_cases hcontrol <;> decide)) hlower
  exact control_notMem_escaped hcontrol hd

end Marks

/-! ## Lines of JSON text -/

namespace Json

mutual

def texts : Json → List String
  | .null => []
  | .bool _ => []
  | .int _ => []
  | .float _ => []
  | .str s => [s]
  | .arr vs => itemTexts vs
  | .obj ms => memberTexts ms

def itemTexts : List Json → List String
  | [] => []
  | v :: vs => texts v ++ itemTexts vs

def memberTexts : List (String × Json) → List String
  | [] => []
  | (name, v) :: ms => name :: (texts v ++ memberTexts ms)

end

theorem lt_notMem_text {p : Numeral.Parts} (hp : p.Proper) (negative : Bool) :
    '<' ∉ (if negative then ['-'] else []) ++ p.text := by
  have hdigits {cs : List Char} (hcs : ∀ c ∈ cs, c.isDigit = true) : '<' ∉ cs := fun hmem =>
    absurd (hcs '<' hmem) (by decide)
  have hshift : '<' ∉ p.shift.elim [] Numeral.shiftText := by
    cases p.shift with
    | none => exact List.not_mem_nil
    | some k =>
      have hplaces := hdigits (Reader.shiftDigits_digits k)
      by_cases hk : k < 0 <;> simpa [Numeral.shiftText, hk] using hplaces
  have hfraction : '<' ∉ if p.fraction = [] then [] else '.' :: p.fraction := by
    split_ifs
    · exact List.not_mem_nil
    · simpa using hdigits hp.fraction_digits
  rw [Numeral.Parts.text, List.mem_append, List.mem_append, List.mem_append]
  rintro (hsign | hwhole | hmem | hmem)
  · cases negative <;> simp at hsign
  · exact hdigits hp.whole_digits hwhole
  · exact hfraction hmem
  · exact hshift hmem

theorem lt_notMem_intText (n : ℤ) : '<' ∉ (intText n).toList := by
  rw [Reader.toList_intText]
  exact lt_notMem_text (Numeral.proper_natParts _) _

theorem lt_notMem_realWord (x : Float) : '<' ∉ (Writer.realWord x).toList := by
  rcases Reader.realWord_cases x with ⟨b, hb, hword⟩ | ⟨-, hword⟩ | ⟨-, hword⟩ | ⟨-, hword⟩
  · obtain ⟨p, hp, htext, -⟩ := Reader.exists_realParts hb
    rw [hword, htext]
    exact lt_notMem_text hp _
  all_goals
    rw [hword]
    decide

variable {part : List Char}

theorem holdsPart_quote (hpart : IsMark part) (s : String) :
    HoldsPart part (quote s).toList ↔ HoldsPart part (s.toList.flatMap Writer.escape) := by
  rw [quote, String.toList_ofList, hpart.holdsPart_cons (by decide),
    hpart.holdsPart_concat (by decide)]

mutual

/-- A line holds a piece of markup if one of its texts does, as it is written. -/
theorem holdsPart_line (hpart : IsMark part) : ∀ v : Json,
    HoldsPart part (line v).toList ↔ ∃ s ∈ texts v, HoldsPart part (s.toList.flatMap Writer.escape)
  | .null => iff_of_false (hpart.not_holdsPart (by decide)) (by simp [texts])
  | .bool true => iff_of_false (hpart.not_holdsPart (by decide)) (by simp [texts])
  | .bool false => iff_of_false (hpart.not_holdsPart (by decide)) (by simp [texts])
  | .int n => iff_of_false (hpart.not_holdsPart (lt_notMem_intText n)) (by simp [texts])
  | .float x => iff_of_false (hpart.not_holdsPart (lt_notMem_realWord x)) (by simp [texts])
  | .str s => by
    rw [line, holdsPart_quote hpart]
    simp [texts]
  | .arr vs => by
    rw [toList_line_arr, hpart.holdsPart_cons (by decide), hpart.holdsPart_concat (by decide),
      holdsPart_itemChars hpart vs, texts]
  | .obj ms => by
    rw [toList_line_obj, hpart.holdsPart_cons (by decide), hpart.holdsPart_concat (by decide),
      holdsPart_memberChars hpart ms, texts]

theorem holdsPart_itemChars (hpart : IsMark part) : ∀ vs : List Json,
    HoldsPart part (itemChars vs) ↔
      ∃ s ∈ itemTexts vs, HoldsPart part (s.toList.flatMap Writer.escape)
  | [] => iff_of_false hpart.not_holdsPart_nil (by simp [itemTexts])
  | [v] => by
    rw [itemChars_singleton, holdsPart_line hpart v]
    simp [itemTexts]
  | v :: w :: vs => by
    rw [itemChars_cons v (List.cons_ne_nil w vs), hpart.holdsPart_append_cons (by decide),
      hpart.holdsPart_cons (by decide), holdsPart_line hpart v, holdsPart_itemChars hpart (w :: vs)]
    simp [itemTexts, or_and_right, exists_or]

theorem holdsPart_memberChars (hpart : IsMark part) : ∀ ms : List (String × Json),
    HoldsPart part (memberChars ms) ↔
      ∃ s ∈ memberTexts ms, HoldsPart part (s.toList.flatMap Writer.escape)
  | [] => iff_of_false hpart.not_holdsPart_nil (by simp [memberTexts])
  | [(name, v)] => by
    rw [memberChars_singleton, hpart.holdsPart_cons (by decide),
      hpart.holdsPart_append_cons (by decide), hpart.holdsPart_cons (by decide),
      hpart.holdsPart_cons (by decide), holdsPart_line hpart v]
    simp [memberTexts]
  | (name, v) :: m :: ms => by
    rw [memberChars_cons name v (List.cons_ne_nil m ms), hpart.holdsPart_cons (by decide),
      hpart.holdsPart_append_cons (by decide), hpart.holdsPart_cons (by decide),
      hpart.holdsPart_cons (by decide), hpart.holdsPart_append_cons (by decide),
      hpart.holdsPart_cons (by decide), holdsPart_line hpart v,
      holdsPart_memberChars hpart (m :: ms)]
    simp [memberTexts, or_and_right, exists_or]

end

/-- Markup without control characters is in a line as it is in the texts. -/
theorem holdsPart_line_iff (hpart : IsMark part) (hplain : part ⊆ plainChars) (v : Json) :
    HoldsPart part (line v).toList ↔ ∃ s ∈ texts v, HoldsPart part s.toList := by
  rw [holdsPart_line hpart]
  exact exists_congr fun s => and_congr_right fun _ => hpart.holdsPart_escaped hplain

theorem not_holdsPart_line {c : Char} (hpart : IsMark part) (hc : c ∈ part)
    (hcontrol : c ∈ controlChars) (v : Json) : ¬ HoldsPart part (line v).toList := by
  rw [holdsPart_line hpart]
  rintro ⟨s, -, hs⟩
  exact not_holdsPart_escaped hc hcontrol hs

end Json

end CodeAtlas
