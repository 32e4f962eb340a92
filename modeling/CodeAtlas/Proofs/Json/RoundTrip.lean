import CodeAtlas.Proofs.Json.Numbers
import CodeAtlas.Proofs.Json.Texts
import CodeAtlas.Proofs.Table

/-!
# Reading what was written

A value in one line is read up to its end and no further. Lists and objects follow by induction on
the fuel, which the length of the line bounds.

* **`Json.parse_line`**: a value is read as it was written.
-/

namespace CodeAtlas.Json

open Reader Numeral

/-! ## The characters of a line -/

section Lines

def itemChars (vs : List Json) : List Char :=
  [',', ' '].intercalate ((itemLines vs).map String.toList)

def memberChars (ms : List (String × Json)) : List Char :=
  [',', ' '].intercalate ((memberLines ms).map String.toList)

theorem toList_line_arr (vs : List Json) :
    (line (.arr vs)).toList = '[' :: (itemChars vs ++ [']']) := by
  rw [line, String.toList_append, String.toList_append, String.toList_intercalate]
  rfl

theorem toList_line_obj (ms : List (String × Json)) :
    (line (.obj ms)).toList = '\x7b' :: (memberChars ms ++ ['\x7d']) := by
  rw [line, String.toList_append, String.toList_append, String.toList_intercalate]
  rfl

variable (name : String) (v : Json)

theorem itemChars_cons {vs : List Json} (h : vs ≠ []) :
    itemChars (v :: vs) = (line v).toList ++ ',' :: ' ' :: itemChars vs := by
  have hne : (itemLines vs).map String.toList ≠ [] := by
    cases vs with
    | nil => exact absurd rfl h
    | cons w vs => exact List.cons_ne_nil _ _
  rw [itemChars, itemLines, List.map_cons, List.intercalate_cons_of_ne_nil hne]
  exact List.append_assoc ..

theorem itemChars_singleton : itemChars [v] = (line v).toList := by
  rw [itemChars, itemLines, itemLines, List.map_cons, List.map_nil, List.intercalate_singleton]

theorem toList_member :
    (quote name ++ ": " ++ line v).toList =
      '"' :: (name.toList.flatMap Writer.escape ++ '"' :: ':' :: ' ' :: (line v).toList) := by
  rw [String.toList_append, String.toList_append, quote, String.toList_ofList]
  simp

theorem memberChars_cons {ms : List (String × Json)} (h : ms ≠ []) :
    memberChars ((name, v) :: ms) =
      '"' :: (name.toList.flatMap Writer.escape ++
        '"' :: ':' :: ' ' :: ((line v).toList ++ ',' :: ' ' :: memberChars ms)) := by
  have hne : (memberLines ms).map String.toList ≠ [] := by
    cases ms with
    | nil => exact absurd rfl h
    | cons m ms => exact List.cons_ne_nil _ _
  rw [memberChars, memberLines, List.map_cons, List.intercalate_cons_of_ne_nil hne, toList_member]
  simp [memberChars]

theorem memberChars_singleton :
    memberChars [(name, v)] =
      '"' :: (name.toList.flatMap Writer.escape ++ '"' :: ':' :: ' ' :: (line v).toList) := by
  rw [memberChars, memberLines, memberLines, List.map_cons, List.map_nil,
    List.intercalate_singleton, toList_member]

end Lines

/-! ## First characters -/

def OpensAtom (c : Char) : Prop := c.isDigit = true ∨ c ∈ ['-', 'N', 'I', 'n', 't', 'f']

theorem opensAtom_text {p : Parts} (hp : p.Proper) (negative : Bool) :
    ∃ c cs, (if negative then ['-'] else []) ++ p.text = c :: cs ∧ OpensAtom c := by
  cases negative with
  | true => exact ⟨'-', _, rfl, Or.inr (by decide)⟩
  | false =>
    obtain ⟨c, cs, htext, hc⟩ := hp.exists_head
    exact ⟨c, cs, htext, Or.inl hc⟩

theorem opensAtom_intText (n : ℤ) : ∃ c cs, (intText n).toList = c :: cs ∧ OpensAtom c := by
  rw [toList_intText]
  exact opensAtom_text (proper_natParts _) _

theorem opensAtom_realWord (x : Float) :
    ∃ c cs, (Writer.realWord x).toList = c :: cs ∧ OpensAtom c := by
  rcases realWord_cases x with ⟨b, hb, hword⟩ | ⟨-, hword⟩ | ⟨-, hword⟩ | ⟨-, hword⟩
  · obtain ⟨p, hp, htext, -⟩ := exists_realParts hb
    rw [hword, htext]
    exact opensAtom_text hp _
  all_goals
    rw [hword]
    exact ⟨_, _, rfl, Or.inr (by decide)⟩

def OpensValue (c : Char) : Prop := OpensAtom c ∨ c ∈ ['"', '[', '\x7b']

theorem opensValue_line (v : Json) : ∃ c cs, (line v).toList = c :: cs ∧ OpensValue c := by
  cases v with
  | null => exact ⟨'n', _, rfl, Or.inl (Or.inr (by decide))⟩
  | bool b =>
    cases b with
    | true => exact ⟨'t', _, rfl, Or.inl (Or.inr (by decide))⟩
    | false => exact ⟨'f', _, rfl, Or.inl (Or.inr (by decide))⟩
  | int n =>
    obtain ⟨c, cs, htext, hc⟩ := opensAtom_intText n
    exact ⟨c, cs, htext, Or.inl hc⟩
  | float x =>
    obtain ⟨c, cs, htext, hc⟩ := opensAtom_realWord x
    exact ⟨c, cs, htext, Or.inl hc⟩
  | str s =>
    refine ⟨'"', s.toList.flatMap Writer.escape ++ ['"'], ?_, Or.inr (by decide)⟩
    rw [line, quote, String.toList_ofList]
  | arr vs => exact ⟨'[', _, toList_line_arr vs, Or.inr (by decide)⟩
  | obj ms => exact ⟨'\x7b', _, toList_line_obj ms, Or.inr (by decide)⟩

theorem opensValue_itemChars (v : Json) (vs : List Json) :
    ∃ c cs, itemChars (v :: vs) = c :: cs ∧ OpensValue c := by
  obtain ⟨c, cs, hline, hc⟩ := opensValue_line v
  cases vs with
  | nil => exact ⟨c, cs, (itemChars_singleton v).trans hline, hc⟩
  | cons w vs =>
    rw [itemChars_cons v (List.cons_ne_nil w vs), hline]
    exact ⟨c, _, rfl, hc⟩

theorem memberChars_head (m : String × Json) (ms : List (String × Json)) :
    ∃ cs, memberChars (m :: ms) = '"' :: cs := by
  obtain ⟨name, v⟩ := m
  cases ms with
  | nil => exact ⟨_, memberChars_singleton name v⟩
  | cons m ms => exact ⟨_, memberChars_cons name v (List.cons_ne_nil m ms)⟩

/-! ## One step of the reader -/

section Steps

variable {c : Char} {cs rest : List Char} {fuel levels : ℕ} {v : Json}

theorem OpensAtom.ne {d : Char} (hc : OpensAtom c)
    (hd : d.isDigit = false ∧ d ∉ ['-', 'N', 'I', 'n', 't', 'f']) : c ≠ d := by
  rintro rfl
  exact hc.elim (fun hdigit => by rw [hdigit] at hd; exact absurd hd.1 (by decide)) hd.2

theorem value_of_opensAtom (hc : OpensAtom c) :
    Reader.value (fuel + 1) levels (c :: cs) = atom (c :: cs) := by
  unfold Reader.value
  split
  · rename_i heq
    exact absurd (List.cons.inj heq).1 (hc.ne (by decide))
  · rename_i heq
    exact absurd (List.cons.inj heq).1 (hc.ne (by decide))
  · rename_i heq
    exact absurd (List.cons.inj heq).1 (hc.ne (by decide))
  · rfl

theorem OpensValue.ne {d : Char} (hc : OpensValue c)
    (hd : d.isDigit = false ∧ d ∉ ['-', 'N', 'I', 'n', 't', 'f']) (hd' : d ∉ ['"', '[', '\x7b']) :
    c ≠ d := by
  rcases hc with hc | hc
  · exact hc.ne hd
  · rintro rfl
    exact hd' hc

theorem skip_of_opensValue (hc : OpensValue c) : skip (c :: cs) = c :: cs := by
  have hne (d : Char) (hd : d ∈ [' ', '\t', '\n', '\r']) : c ≠ d := by
    fin_cases hd <;> exact hc.ne (by decide) (by decide)
  rw [skip, List.dropWhile_cons_of_neg]
  simp [hne]

theorem value_nil : Reader.value (fuel + 1) (levels + 1) ('[' :: ']' :: rest) =
    .ok (.arr [], rest) := by
  rw [Reader.value]
  rfl

theorem value_list (hc : OpensValue c) :
    Reader.value (fuel + 1) (levels + 1) ('[' :: c :: cs) = items fuel levels (c :: cs) [] := by
  rw [Reader.value, skip_of_opensValue hc]
  split
  · rename_i heq
    exact absurd (List.cons.inj heq).1 (hc.ne (by decide) (by decide))
  · rfl

theorem value_empty : Reader.value (fuel + 1) (levels + 1) ('\x7b' :: '\x7d' :: rest) =
    .ok (.obj [], rest) := by
  rw [Reader.value]
  rfl

theorem value_object : Reader.value (fuel + 1) (levels + 1) ('\x7b' :: '"' :: cs) =
    members fuel levels ('"' :: cs) [] := by
  rw [Reader.value]
  rfl

theorem items_more {acc : List Json} (hc : OpensValue c)
    (h : Reader.value fuel levels cs = .ok (v, ',' :: ' ' :: c :: rest)) :
    items (fuel + 1) levels cs acc = items fuel levels (c :: rest) (v :: acc) := by
  rw [items, h]
  exact congrArg (items fuel levels · (v :: acc)) (skip_of_opensValue hc)

theorem items_last {acc : List Json} (h : Reader.value fuel levels cs = .ok (v, ']' :: rest)) :
    items (fuel + 1) levels cs acc = .ok (.arr (v :: acc).reverse, rest) := by
  rw [items, h]
  rfl

theorem value_skip (hc : OpensValue c) :
    Reader.value fuel levels (skip (' ' :: c :: cs)) = Reader.value fuel levels (c :: cs) :=
  congrArg _ (skip_of_opensValue hc)

variable {acc : Members} (name : String)

theorem members_more (hc : OpensValue c)
    (h : Reader.value fuel levels (c :: cs) = .ok (v, ',' :: ' ' :: '"' :: rest)) :
    members (fuel + 1) levels
        ('"' :: (name.toList.flatMap Writer.escape ++ '"' :: ':' :: ' ' :: c :: cs)) acc =
      members fuel levels ('"' :: rest) (Table.put acc name v) := by
  have hcolon : skip (':' :: ' ' :: c :: cs) = ':' :: ' ' :: c :: cs := rfl
  rw [members, text?_escaped]
  simp only [hcolon, value_skip hc, h]
  rfl

theorem members_last (hc : OpensValue c)
    (h : Reader.value fuel levels (c :: cs) = .ok (v, '\x7d' :: rest)) :
    members (fuel + 1) levels
        ('"' :: (name.toList.flatMap Writer.escape ++ '"' :: ':' :: ' ' :: c :: cs)) acc =
      .ok (.obj (Table.put acc name v), rest) := by
  have hcolon : skip (':' :: ' ' :: c :: cs) = ':' :: ' ' :: c :: cs := rfl
  rw [members, text?_escaped]
  simp only [hcolon, value_skip hc, h]
  rfl

end Steps

/-! ## Whole values -/

mutual

/-- The value can be read where that many more levels may be opened: it is not deeper, its whole
numbers are not too long, and no object has a name twice. -/
def Fits : ℕ → Json → Prop
  | _, .null => True
  | _, .bool _ => True
  | _, .int n => Decimal.digitCount n.natAbs ≤ Reader.mostDigits
  | _, .float _ => True
  | _, .str _ => True
  | levels, .arr vs => 0 < levels ∧ ItemsFit (levels - 1) vs
  | levels, .obj ms => 0 < levels ∧ (ms.map Prod.fst).Nodup ∧ MembersFit (levels - 1) ms

def ItemsFit : ℕ → List Json → Prop
  | _, [] => True
  | levels, v :: vs => Fits levels v ∧ ItemsFit levels vs

def MembersFit : ℕ → List (String × Json) → Prop
  | _, [] => True
  | levels, (_, v) :: ms => Fits levels v ∧ MembersFit levels ms

end

theorem itemsFit_iff {levels : ℕ} {vs : List Json} :
    ItemsFit levels vs ↔ ∀ v ∈ vs, Fits levels v := by
  induction vs with
  | nil => simp [ItemsFit]
  | cons v vs ih => simp [ItemsFit, ih]

theorem put_of_fresh {acc : Members} {name : String} (h : name ∉ acc.map Prod.fst) (v : Json) :
    Table.put acc name v = acc ++ [(name, v)] :=
  if_neg fun hhas => h (Table.has_iff.mp hhas)

def ReadsValues (fuel : ℕ) : Prop :=
  ∀ (v : Json) (levels : ℕ) (rest : List Char), Fits levels v → (line v).toList.length ≤ fuel →
    Stops rest → Reader.value fuel levels ((line v).toList ++ rest) = .ok (v, rest)

def ReadsItems (fuel : ℕ) : Prop :=
  ∀ (vs : List Json) (levels : ℕ) (rest : List Char) (acc : List Json), vs ≠ [] →
    ItemsFit levels vs → (itemChars vs).length < fuel →
    items fuel levels (itemChars vs ++ ']' :: rest) acc = .ok (.arr (acc.reverse ++ vs), rest)

def ReadsMembers (fuel : ℕ) : Prop :=
  ∀ (ms : List (String × Json)) (levels : ℕ) (rest : List Char) (acc : Members), ms ≠ [] →
    MembersFit levels ms → ((acc ++ ms).map Prod.fst).Nodup → (memberChars ms).length < fuel →
    members fuel levels (memberChars ms ++ '\x7d' :: rest) acc = .ok (.obj (acc ++ ms), rest)

section Reading

variable {fuel : ℕ}

theorem stops_of_mem {c : Char} {cs : List Char} (hc : c ∈ [',', ']', '\x7d', ';']) :
    Stops (c :: cs) := by
  rintro d ⟨⟩
  fin_cases hc <;> decide

theorem readsValues_succ (hitems : ReadsItems fuel) (hmembers : ReadsMembers fuel) :
    ReadsValues (fuel + 1) := by
  intro v levels rest hfits hfuel h
  cases v with
  | null => rfl
  | bool b => cases b <;> rfl
  | int n =>
    obtain ⟨c, cs, htext, hc⟩ := opensAtom_intText n
    rw [line, htext, List.cons_append, value_of_opensAtom hc, ← List.cons_append, ← htext]
    exact atom_intText n hfits h
  | float x =>
    obtain ⟨c, cs, htext, hc⟩ := opensAtom_realWord x
    rw [line, htext, List.cons_append, value_of_opensAtom hc, ← List.cons_append, ← htext]
    exact atom_realWord x h
  | str s =>
    rw [line, quote, String.toList_ofList, List.cons_append, List.append_assoc,
      List.singleton_append, Reader.value, text?_escaped]
    rfl
  | arr vs =>
    rw [toList_line_arr] at hfuel ⊢
    obtain ⟨hlevels, hfits⟩ := hfits
    obtain ⟨levels, rfl⟩ : ∃ k, levels = k + 1 := ⟨levels - 1, by omega⟩
    cases vs with
    | nil => exact value_nil
    | cons v vs =>
      obtain ⟨c, cs, hitem, hc⟩ := opensValue_itemChars v vs
      have hread := hitems (v :: vs) levels rest [] (List.cons_ne_nil v vs) hfits (by
        simp at hfuel
        omega)
      rw [hitem, List.cons_append] at hread
      rw [hitem, List.cons_append, List.cons_append, List.cons_append, List.append_assoc,
        List.singleton_append, value_list hc]
      exact hread
  | obj ms =>
    rw [toList_line_obj] at hfuel ⊢
    obtain ⟨hlevels, hnames, hfits⟩ := hfits
    obtain ⟨levels, rfl⟩ : ∃ k, levels = k + 1 := ⟨levels - 1, by omega⟩
    cases ms with
    | nil => exact value_empty
    | cons m ms =>
      obtain ⟨cs, hmember⟩ := memberChars_head m ms
      have hread := hmembers (m :: ms) levels rest [] (List.cons_ne_nil m ms) hfits hnames (by
        simp at hfuel
        omega)
      rw [hmember, List.cons_append] at hread
      rw [hmember, List.cons_append, List.cons_append, List.cons_append, List.append_assoc,
        List.singleton_append, value_object]
      exact hread

theorem readsItems_succ (hvalues : ReadsValues fuel) (hitems : ReadsItems fuel) :
    ReadsItems (fuel + 1) := by
  intro vs levels rest acc hne hfits hfuel
  cases vs with
  | nil => exact absurd rfl hne
  | cons v vs =>
    cases vs with
    | nil =>
      rw [itemChars_singleton] at hfuel ⊢
      have hread := hvalues v levels (']' :: rest) hfits.1 (by omega) (stops_of_mem (by decide))
      rw [items_last hread, List.reverse_cons]
    | cons w vs =>
      rw [itemChars_cons v (List.cons_ne_nil w vs)] at hfuel ⊢
      obtain ⟨c, cs, hitem, hc⟩ := opensValue_itemChars w vs
      simp only [List.length_append, List.length_cons] at hfuel
      have hread := hvalues v levels (',' :: ' ' :: (itemChars (w :: vs) ++ ']' :: rest)) hfits.1
        (by omega) (stops_of_mem (by decide))
      have hmore := hitems (w :: vs) levels rest (v :: acc) (List.cons_ne_nil w vs) hfits.2
        (by omega)
      rw [hitem, List.cons_append] at hread hmore
      rw [hitem, List.append_assoc, List.cons_append, List.cons_append, List.cons_append,
        items_more hc hread, hmore, List.reverse_cons, List.append_assoc, List.singleton_append]

theorem readsMembers_succ (hvalues : ReadsValues fuel) (hmembers : ReadsMembers fuel) :
    ReadsMembers (fuel + 1) := by
  intro ms levels rest acc hne hfits hnames hfuel
  cases ms with
  | nil => exact absurd rfl hne
  | cons m ms =>
    obtain ⟨name, v⟩ := m
    obtain ⟨c, cs, hline, hc⟩ := opensValue_line v
    have hfresh : name ∉ acc.map Prod.fst := fun hmem => by
      rw [List.map_append, List.nodup_append] at hnames
      exact hnames.2.2 name hmem name (by simp) rfl
    cases ms with
    | nil =>
      rw [memberChars_singleton] at hfuel ⊢
      simp only [List.length_append, List.length_cons] at hfuel
      have hread := hvalues v levels ('\x7d' :: rest) hfits.1 (by omega)
        (stops_of_mem (by decide))
      rw [hline, List.cons_append] at hread
      rw [hline, List.cons_append, List.append_assoc, List.cons_append, List.cons_append,
        List.cons_append, List.cons_append, members_last name hc hread, put_of_fresh hfresh]
    | cons m ms =>
      rw [memberChars_cons name v (List.cons_ne_nil m ms)] at hfuel ⊢
      obtain ⟨more, hmember⟩ := memberChars_head m ms
      simp only [List.length_append, List.length_cons] at hfuel
      have hread := hvalues v levels (',' :: ' ' :: (memberChars (m :: ms) ++ '\x7d' :: rest))
        hfits.1 (by omega) (stops_of_mem (by decide))
      have hmore := hmembers (m :: ms) levels rest (acc ++ [(name, v)]) (List.cons_ne_nil m ms)
        hfits.2 (by rwa [List.append_assoc, List.singleton_append]) (by omega)
      rw [hline, hmember, List.cons_append, List.cons_append] at hread
      rw [hmember, List.cons_append, List.append_assoc, List.singleton_append] at hmore
      rw [hline, hmember]
      simp only [List.cons_append, List.append_assoc]
      rw [members_more name hc hread, put_of_fresh hfresh, hmore]

theorem reads (fuel : ℕ) : ReadsValues fuel ∧ ReadsItems fuel ∧ ReadsMembers fuel := by
  induction fuel with
  | zero =>
    refine ⟨fun v levels rest _ hfuel => ?_, fun vs levels rest acc _ _ hfuel => ?_,
      fun ms levels rest acc _ _ _ hfuel => ?_⟩
    · obtain ⟨c, cs, hline, -⟩ := opensValue_line v
      simp [hline] at hfuel
    · omega
    · omega
  | succ fuel ih =>
    obtain ⟨hvalues, hitems, hmembers⟩ := ih
    exact ⟨readsValues_succ hitems hmembers, readsItems_succ hvalues hitems,
      readsMembers_succ hvalues hmembers⟩

end Reading

theorem parse_line {v : Json} (h : Fits mostLevels v) : parse (line v) = .ok v := by
  obtain ⟨c, cs, hline, hc⟩ := opensValue_line v
  have hread := (reads (2 * (line v).toList.length + 2)).1 v mostLevels [] h (by omega)
    (fun c hc => by simp at hc)
  have hskip : skip (line v).toList = (line v).toList := by
    rw [hline]
    exact skip_of_opensValue hc
  rw [List.append_nil] at hread
  rw [parse, hskip, hread]
  rfl

end CodeAtlas.Json
