import CodeAtlas.Export.Text
import CodeAtlas.Proofs.Export.Markup

/-!
# The script of a page

The data of a graph stand in the script of its page. A browser reads a script up to its end tag in
three modes, since a comment in it may hold scripts of its own.

* `ScriptMode.run`: the mode behind a part of a script, if the script goes on so far.
* **`Graph.html_script_whole_iff`**: the pages whose script is whole.
-/

namespace CodeAtlas

open Json

/-! ## Finding the script -/

def behind? (part : List Char) : List Char → Option (List Char)
  | [] => none
  | c :: cs =>
    if part.isPrefixOf (c :: cs) then some ((c :: cs).drop part.length) else behind? part cs

/-! ### Modes of a script -/

def endTag : List Char := ['<', '/', 's', 'c', 'r', 'i', 'p', 't']

def startTag : List Char := ['<', 's', 'c', 'r', 'i', 'p', 't']

def commentStart : List Char := ['<', '!', '-', '-']

def commentEnd : List Char := ['-', '-', '>']

/-- The ends of a tag's name that a text can show as they are. -/
def shownEnds : List Char := [' ', '/', '>']

/-- The ends of a tag's name. -/
def tagEnds : List Char := shownEnds ++ controlChars

/-- The characters start with the part, in letters of any case. -/
def opens (part cs : List Char) : Bool := part.isPrefixOf (cs.map Char.toLower)

def opensTag (tag cs : List Char) : Bool := tagEnds.any fun d => opens (tag ++ [d]) cs

/-- How a script is read: outside comments, in a comment, or in a script in a comment. -/
inductive ScriptMode where
  | plain
  | escaped
  | doubled
deriving DecidableEq

/-- The mode behind the first of the characters, none if the script ends in front of it. -/
def ScriptMode.next (m : ScriptMode) (cs : List Char) : Option ScriptMode :=
  match m with
  | .plain =>
    if opensTag endTag cs then none else some (if opens commentStart cs then .escaped else .plain)
  | .escaped =>
    if opensTag endTag cs then none
    else if opensTag startTag cs then some .doubled
    else some (if opens commentEnd cs then .plain else .escaped)
  | .doubled =>
    if opensTag endTag cs then some .escaped
    else some (if opens commentEnd cs then .plain else .doubled)

/-- The mode behind all of the characters, none if the script ends in them. -/
def ScriptMode.run : ScriptMode → List Char → Option ScriptMode
  | m, [] => some m
  | m, c :: cs => (m.next (c :: cs)).bind (·.run cs)

/-- The characters up to the end of the script, none if it does not end. -/
def scriptText? : ScriptMode → List Char → Option (List Char)
  | _, [] => none
  | m, c :: cs =>
    match m.next (c :: cs) with
    | none => some []
    | some m => (scriptText? m cs).map (c :: ·)

/-! ### Scripts of pages -/

def scriptTag : List Char := ['<', 's', 'c', 'r', 'i', 'p', 't', '>']

/-- The script of a page, if it ends. -/
def pageScript? (page : String) : Option (List Char) :=
  (behind? scriptTag page.toList).bind (scriptText? .plain)

def dataLabel : String := "\n    const data = "

def scriptValue? (script : List Char) : Option Json := do
  let data ← Reader.after? dataLabel script
  match Reader.value data.length Reader.mostLevels data with
  | .ok (v, ';' :: _) => some v
  | _ => none

def pageValue? (page : String) : Option Json := (pageScript? page).bind scriptValue?

section Finding

variable {part xs ys : List Char} {c : Char}

theorem behind?_append_cons (hne : part ≠ []) (hc : c ∉ part) (h : ¬ part <:+: xs) :
    behind? part (xs ++ c :: ys) = behind? part ys := by
  induction xs with
  | nil =>
    have hopen : ¬ part <+: c :: ys := fun hopen =>
      hne (List.prefix_nil.mp (prefix_of_prefix_append_cons hc hopen))
    rw [List.nil_append, behind?, if_neg (by rwa [List.isPrefixOf_iff_prefix])]
  | cons x xs ih =>
    have hopen : ¬ part <+: x :: xs ++ c :: ys := fun hopen =>
      h (prefix_of_prefix_append_cons hc hopen).isInfix
    rw [List.cons_append, behind?, if_neg (by rwa [List.isPrefixOf_iff_prefix])]
    exact ih fun hrest => h (List.infix_cons_iff.mpr (Or.inr hrest))

theorem behind?_append_self (hne : part ≠ []) : behind? part (part ++ xs) = some xs := by
  obtain ⟨a, rest, rfl⟩ := List.exists_cons_of_ne_nil hne
  have hopen : (a :: rest).isPrefixOf (a :: (rest ++ xs)) = true :=
    List.isPrefixOf_iff_prefix.mpr (List.prefix_append (a :: rest) xs)
  rw [List.cons_append, behind?, if_pos hopen, ← List.cons_append, List.drop_left]

theorem opens_append_cons (hpart : part ⊆ markChars) (hc : c.toLower ∉ markChars) :
    opens part (xs ++ c :: ys) = opens part xs := by
  rw [Bool.eq_iff_iff, opens, opens, List.isPrefixOf_iff_prefix, List.isPrefixOf_iff_prefix,
    List.map_append, List.map_cons]
  exact ⟨prefix_of_prefix_append_cons fun hmem => hc (hpart hmem),
    fun h => h.trans (List.prefix_append _ _)⟩

theorem tagEnds_subset : tagEnds ⊆ markChars := by decide

theorem concat_subset (h : part ⊆ xs) (hc : c ∈ xs) : part ++ [c] ⊆ xs :=
  List.append_subset.mpr ⟨h, List.cons_subset.mpr ⟨hc, List.nil_subset _⟩⟩

theorem opensTag_append_cons {tag : List Char} (htag : tag ⊆ markChars)
    (hc : c.toLower ∉ markChars) : opensTag tag (xs ++ c :: ys) = opensTag tag xs := by
  rw [Bool.eq_iff_iff, opensTag, opensTag, List.any_eq_true, List.any_eq_true]
  refine exists_congr fun d => and_congr_right fun hd => ?_
  rw [opens_append_cons (concat_subset htag (tagEnds_subset hd)) hc]

/-- A character outside markup parts what is in front of it from what is behind it. -/
theorem ScriptMode.next_append_cons (hc : c.toLower ∉ markChars) (ys : List Char) (m : ScriptMode) :
    m.next (xs ++ c :: ys) = m.next xs := by
  cases m <;>
    simp only [next, opensTag_append_cons (by decide : endTag ⊆ markChars) hc,
      opensTag_append_cons (by decide : startTag ⊆ markChars) hc,
      opens_append_cons (by decide : commentStart ⊆ markChars) hc,
      opens_append_cons (by decide : commentEnd ⊆ markChars) hc]

variable {a : Char} {m m' : ScriptMode}

theorem opens_cons_of_ne (ha : a.toNat < 97) (hc : c ≠ a) :
    opens (a :: part) (c :: xs) = false := by
  have hlower : a ≠ c.toLower := fun h => hc (eq_of_toLower_eq (Or.inl ha) h.symm)
  rw [opens, List.map_cons, List.isPrefixOf_cons_cons, beq_false_of_ne hlower, Bool.false_and]

theorem opensTag_cons_of_ne (ha : a.toNat < 97) (hc : c ≠ a) :
    opensTag (a :: part) (c :: xs) = false := by
  simp [opensTag, opens_cons_of_ne ha hc]

theorem ScriptMode.next_of_ne (hlt : c ≠ '<') (hdash : c ≠ '-') (m : ScriptMode) :
    m.next (c :: xs) = some m := by
  cases m <;>
    simp [next, endTag, startTag, commentStart, commentEnd, opensTag_cons_of_ne _ hlt,
      opens_cons_of_ne _ hlt, opens_cons_of_ne _ hdash]

theorem scriptText?_cons (h : m.next (c :: xs) = some m') :
    scriptText? m (c :: xs) = (scriptText? m' xs).map (c :: ·) := by
  rw [scriptText?, h]

theorem scriptText?_append (hlt : '<' ∉ xs) (hdash : '-' ∉ xs) (m : ScriptMode) :
    scriptText? m (xs ++ ys) = (scriptText? m ys).map (xs ++ ·) := by
  induction xs with
  | nil => simp
  | cons x xs ih =>
    rw [List.mem_cons, not_or] at hlt hdash
    have hnext : m.next (x :: (xs ++ ys)) = some m :=
      ScriptMode.next_of_ne (Ne.symm hlt.1) (Ne.symm hdash.1) m
    rw [List.cons_append, scriptText?_cons hnext, ih hlt.2 hdash.2]
    simp [Function.comp_def]

theorem scriptText?_of_run (hc : c.toLower ∉ markChars) (h : m.run xs = some m') :
    scriptText? m (xs ++ c :: ys) = (scriptText? m' (c :: ys)).map (xs ++ ·) := by
  induction xs generalizing m with
  | nil =>
    cases h
    simp
  | cons x xs ih =>
    obtain ⟨next, hnext, hrest⟩ := Option.bind_eq_some_iff.mp h
    rw [← ScriptMode.next_append_cons hc ys, List.cons_append] at hnext
    rw [List.cons_append, scriptText?_cons hnext, ih hrest]
    simp [Function.comp_def]

theorem scriptText?_of_run_eq_none {m : ScriptMode} (hc : c.toLower ∉ markChars)
    (h : m.run xs = none) (ys : List Char) :
    ∃ front, scriptText? m (xs ++ c :: ys) = some front ∧ front.length < xs.length := by
  induction xs generalizing m with
  | nil => cases h
  | cons x xs ih =>
    rw [ScriptMode.run, ← ScriptMode.next_append_cons hc ys, List.cons_append] at h
    cases hnext : m.next (x :: (xs ++ c :: ys)) with
    | none => exact ⟨[], by rw [List.cons_append, scriptText?, hnext], by simp⟩
    | some next =>
      rw [hnext, Option.bind_some] at h
      obtain ⟨front, hfront, hlen⟩ := ih h
      refine ⟨x :: front, ?_, Nat.succ_lt_succ hlen⟩
      rw [List.cons_append, scriptText?_cons hnext, hfront, Option.map_some]

/-! ### Runs over characters without some markup -/

/-- A tag of this name occurs in the characters. -/
def HoldsTag (tag cs : List Char) : Prop := ∃ d ∈ tagEnds, HoldsPart (tag ++ [d]) cs

theorem holdsPart_cons_iff :
    HoldsPart part (c :: xs) ↔ opens part (c :: xs) = true ∨ HoldsPart part xs := by
  rw [opens, List.isPrefixOf_iff_prefix]
  exact List.infix_cons_iff

theorem holdsTag_cons_iff :
    HoldsTag part (c :: xs) ↔ opensTag part (c :: xs) = true ∨ HoldsTag part xs := by
  simp only [HoldsTag, opensTag, holdsPart_cons_iff, List.any_eq_true, and_or_left, exists_or]

theorem ScriptMode.run_plain (h : ¬ HoldsPart commentStart xs) :
    (plain.run xs = none ↔ HoldsTag endTag xs) ∧
      (plain.run xs = some plain ↔ ¬ HoldsTag endTag xs) := by
  induction xs with
  | nil =>
    have hnone : ¬ HoldsTag endTag [] := by simp [HoldsTag, HoldsPart]
    simp [run, hnone]
  | cons x xs ih =>
    rw [holdsPart_cons_iff, not_or, Bool.not_eq_true] at h
    rw [holdsTag_cons_iff, run, next, h.1]
    cases opensTag endTag (x :: xs) with
    | true => simp
    | false => simpa using ih h.2

theorem ScriptMode.exists_run {m : ScriptMode} (hend : ¬ HoldsTag endTag xs)
    (hstart : ¬ HoldsTag startTag xs) (hm : m ≠ doubled) :
    ∃ m', m.run xs = some m' ∧ m' ≠ doubled := by
  induction xs generalizing m with
  | nil => exact ⟨m, rfl, hm⟩
  | cons x xs ih =>
    rw [holdsTag_cons_iff, not_or, Bool.not_eq_true] at hend hstart
    obtain ⟨next, hnext, hne⟩ : ∃ m', m.next (x :: xs) = some m' ∧ m' ≠ doubled := by
      cases m with
      | plain =>
        rw [ScriptMode.next, hend.1]
        exact ⟨_, rfl, by split_ifs <;> decide⟩
      | escaped =>
        rw [ScriptMode.next, hend.1, hstart.1]
        exact ⟨_, rfl, by split_ifs <;> decide⟩
      | doubled => exact absurd rfl hm
    rw [run, hnext, Option.bind_some]
    exact ih hend.2 hstart.2 hne

end Finding

/-! ## The page around the script -/

def joinLines (lines : List String) : List Char := (Text.joinWith "\n" lines).toList

def scriptCode : List Char := joinLines (pageTail.take 6 ++ ["  "])

def pageEnd : List Char := joinLines ("</script>" :: pageTail.drop 7)

def scriptOf (data : String) : List Char :=
  dataLabel.toList ++ (data.toList ++ ';' :: '\n' :: scriptCode)

section Page

variable {lines more : List String}

theorem joinLines_append (hlines : lines ≠ []) (hmore : more ≠ []) :
    joinLines (lines ++ more) = joinLines lines ++ '\n' :: joinLines more := by
  rw [joinLines, Text.joinWith, String.intercalate_append_of_ne_nil hlines hmore]
  simp [joinLines, Text.joinWith]

variable (line : String) (data : String) {v : Json} (nodes edges : ℕ)

theorem joinLines_singleton : joinLines [line] = line.toList := by
  rw [joinLines, Text.joinWith, String.intercalate_singleton]

theorem joinLines_cons (hmore : more ≠ []) :
    joinLines (line :: more) = line.toList ++ '\n' :: joinLines more := by
  rw [← joinLines_singleton line, ← joinLines_append (List.cons_ne_nil _ _) hmore]
  rfl

theorem not_infix_joinLines {part : List Char} (hne : part ≠ []) (hpart : '\n' ∉ part)
    (h : ∀ line ∈ lines, ¬ part <:+: line.toList) : ¬ part <:+: joinLines lines := by
  induction lines with
  | nil => exact fun hnil => hne (List.infix_nil.mp hnil)
  | cons line lines ih =>
    obtain ⟨hline, hlines⟩ := List.forall_mem_cons.mp h
    by_cases hnil : lines = []
    · rwa [hnil, joinLines_singleton]
    · rw [joinLines_cons line hnil, infix_append_cons_iff hpart, not_or]
      exact ⟨hline, ih hlines⟩

theorem notMem_scriptCode {c : Char} (hc : c = '<' ∨ c = '-') : c ∉ scriptCode := by
  rw [scriptCode, ← List.singleton_infix_iff]
  refine not_infix_joinLines (by simp) (by rcases hc with rfl | rfl <;> decide) ?_
  simp only [pageTail, List.take, List.cons_append, List.nil_append, List.forall_mem_cons,
    List.singleton_infix_iff]
  refine ⟨?_, ?_, ?_, ?_, ?_, ?_, ?_, by simp⟩ <;> rw [String.toList_ofList] <;>
    rcases hc with rfl | rfl <;> decide

theorem joinLines_pageTail : joinLines pageTail = scriptCode ++ pageEnd := by
  have htail : pageTail = pageTail.take 6 ++ "  </script>" :: pageTail.drop 7 := rfl
  have hend : "  </script>".toList = "  ".toList ++ "</script>".toList := by
    rw [String.toList_ofList, String.toList_ofList, String.toList_ofList]
    rfl
  rw [htail, joinLines_append (by decide) (by decide), joinLines_cons _ (by decide), hend,
    scriptCode, joinLines_append (by decide) (by decide), joinLines_singleton, pageEnd,
    joinLines_cons _ (by decide), List.append_assoc, List.append_assoc, List.cons_append]

theorem lt_notMem_natText (n : ℕ) : '<' ∉ (natText n).toList := by
  rw [natText, String.toList_ofList]
  exact fun hmem => absurd (Reader.toDigits_digits n '<' hmem) (by decide)

theorem not_infix_header :
    ¬ scriptTag <:+: ("  <header>CodeIntel dependency graph: " ++ natText nodes ++ " nodes, " ++
      natText edges ++ " edges</header>").toList := by
  have hcount : ("  <header>CodeIntel dependency graph: " ++ natText nodes ++ " nodes, " ++
      natText edges ++ " edges</header>").toList =
      "  <header>CodeIntel dependency graph:".toList ++ ' ' :: ((natText nodes).toList ++
        ' ' :: ("nodes,".toList ++ ' ' :: ((natText edges).toList ++
          ' ' :: "edges</header>".toList))) := by
    simp
  have hplain : ' ' ∉ scriptTag := by decide
  rw [hcount, infix_append_cons_iff hplain, infix_append_cons_iff hplain,
    infix_append_cons_iff hplain, infix_append_cons_iff hplain]
  rintro (h | h | h | h | h)
  · exact absurd h (by rw [String.toList_ofList]; decide +kernel)
  · exact not_infix_of_notMem (lt_notMem_natText nodes) h
  · exact absurd h (by rw [String.toList_ofList]; decide)
  · exact not_infix_of_notMem (lt_notMem_natText edges) h
  · exact absurd h (by rw [String.toList_ofList]; decide)

theorem not_infix_pageHead :
    ¬ scriptTag <:+: joinLines ((pageHead nodes edges).take 15) := by
  refine not_infix_joinLines (by decide) (by decide) ?_
  have hheader := not_infix_header nodes edges
  simp only [pageHead, List.take, List.forall_mem_cons]
  refine ⟨?_, ?_, ?_, ?_, ?_, ?_, ?_, ?_, ?_, ?_, ?_, ?_, ?_, hheader, ?_, by simp⟩ <;>
    rw [String.toList_ofList] <;> decide +kernel

theorem toList_page :
    (page data nodes edges).toList = joinLines ((pageHead nodes edges).take 15) ++
      '\n' :: ' ' :: ' ' :: (scriptTag ++ (scriptOf data ++ pageEnd)) := by
  have hlast : (pageHead nodes edges).drop 15 = ["  <script>"] := rfl
  have hhead : pageHead nodes edges = (pageHead nodes edges).take 15 ++ ["  <script>"] := by
    rw [← hlast, List.take_append_drop]
  have hne : (pageHead nodes edges).take 15 ≠ [] := List.cons_ne_nil _ _
  have hopen : "  <script>".toList = ' ' :: ' ' :: scriptTag := String.toList_ofList
  have hdata : ("    const data = " ++ data ++ ";").toList ++ '\n' :: joinLines pageTail =
      "    const data = ".toList ++ (data.toList ++ ';' :: '\n' :: (scriptCode ++ pageEnd)) := by
    have hsemicolon : ";".toList = [';'] := String.toList_ofList
    rw [joinLines_pageTail, String.toList_append, String.toList_append, hsemicolon]
    simp only [List.append_assoc, List.singleton_append]
  have hlabel : dataLabel.toList = '\n' :: "    const data = ".toList := by
    rw [dataLabel, String.toList_ofList, String.toList_ofList]
  generalize (pageHead nodes edges).take 15 = front at hhead hne ⊢
  rw [page, hhead, List.append_assoc, List.append_assoc]
  change joinLines (front ++ "  <script>" :: ("    const data = " ++ data ++ ";") :: pageTail) = _
  rw [joinLines_append hne (List.cons_ne_nil _ _), joinLines_cons _ (List.cons_ne_nil _ _),
    joinLines_cons _ (by decide), hdata, hopen, scriptOf, hlabel]
  rw [List.cons_append, List.cons_append, List.cons_append, List.cons_append, List.append_assoc,
    List.append_assoc, List.cons_append, List.cons_append]

theorem pageScript?_page :
    pageScript? (page data nodes edges) = scriptText? .plain (scriptOf data ++ pageEnd) := by
  have hplain : ' ' ∉ scriptTag := by decide
  have htag : scriptTag ≠ [] := by decide
  have hblanks : ¬ scriptTag <:+: [' '] := by decide
  rw [pageScript?, toList_page,
    behind?_append_cons htag (by decide) (not_infix_pageHead nodes edges),
    ← List.singleton_append, behind?_append_cons htag hplain hblanks, behind?_append_self htag,
    Option.bind_some]

theorem scriptText?_pageEnd (m : ScriptMode) :
    scriptText? m pageEnd = if m = .doubled then none else some [] := by
  have hend : pageEnd = "</script>\n</body>\n</html>\n".toList := by decide +kernel
  rw [hend]
  cases m <;> decide +kernel

/-- Code without markup leaves the mode as it is, and the end tag ends the script unless it is
doubled. -/
theorem scriptText?_append_pageEnd {code : List Char} (hlt : '<' ∉ code) (hdash : '-' ∉ code)
    (m : ScriptMode) :
    scriptText? m (code ++ pageEnd) = if m = .doubled then none else some code := by
  rw [scriptText?_append hlt hdash, scriptText?_pageEnd]
  split_ifs
  · rfl
  · rw [Option.map_some, List.append_nil]

theorem pageScript?_page_append :
    pageScript? (page data nodes edges) =
      (scriptText? .plain (data.toList ++ ';' :: '\n' :: scriptCode ++ pageEnd)).map
        (dataLabel.toList ++ ·) := by
  have hlabel : '<' ∉ dataLabel.toList ∧ '-' ∉ dataLabel.toList := by
    rw [dataLabel, String.toList_ofList]
    decide
  rw [pageScript?_page, scriptOf, List.append_assoc, scriptText?_append hlabel.1 hlabel.2]

theorem pageScript?_page_of_run {data : String} {m : ScriptMode}
    (h : ScriptMode.plain.run data.toList = some m) (nodes edges : ℕ) :
    pageScript? (page data nodes edges) = if m = .doubled then none else some (scriptOf data) := by
  have hlt : '<' ∉ ';' :: '\n' :: scriptCode := by simpa using notMem_scriptCode (Or.inl rfl)
  have hdash : '-' ∉ ';' :: '\n' :: scriptCode := by simpa using notMem_scriptCode (Or.inr rfl)
  rw [pageScript?_page_append, List.append_assoc, List.cons_append,
    scriptText?_of_run (by decide) h, ← List.cons_append,
    scriptText?_append_pageEnd hlt hdash]
  split_ifs <;> simp [scriptOf]

theorem pageScript?_page_iff :
    pageScript? (page data nodes edges) = some (scriptOf data) ↔
      ∃ m, ScriptMode.plain.run data.toList = some m ∧ m ≠ .doubled := by
  cases hrun : ScriptMode.plain.run data.toList with
  | none =>
    obtain ⟨front, hfront, hlen⟩ := scriptText?_of_run_eq_none
      (by decide : ';'.toLower ∉ markChars) hrun ('\n' :: scriptCode ++ pageEnd)
    refine iff_of_false ?_ (by simp)
    rw [pageScript?_page_append, List.append_assoc, List.cons_append, hfront, Option.map_some,
      Option.some.injEq, scriptOf]
    intro heq
    have hcut := congrArg List.length (List.append_cancel_left heq)
    rw [List.length_append] at hcut
    omega
  | some m =>
    rw [pageScript?_page_of_run hrun]
    by_cases hm : m = .doubled <;> simp [hm]

theorem after?_append (word : String) (cs : List Char) :
    Reader.after? word (word.toList ++ cs) = some cs := by
  rw [Reader.after?, if_pos (List.isPrefixOf_iff_prefix.mpr (List.prefix_append _ _)),
    List.drop_left]

theorem scriptValue?_append (h : Fits Reader.mostLevels v) (code : List Char) :
    scriptValue? (dataLabel.toList ++ (v.line.toList ++ ';' :: code)) = some v := by
  have hread := (reads (v.line.toList ++ ';' :: code).length).1 v Reader.mostLevels (';' :: code) h
    (by simp) (stops_of_mem (by decide))
  rw [scriptValue?, after?_append, Option.bind_eq_bind, Option.bind_some, hread]
  rfl

theorem scriptValue?_scriptOf (h : Fits Reader.mostLevels v) :
    scriptValue? (scriptOf v.line) = some v :=
  scriptValue?_append h ('\n' :: scriptCode)

end Page

/-! ## The data of a graph -/

/-- A text holds one of the parts. -/
def Tagged (parts : List (List Char)) (texts : List String) : Prop :=
  ∃ part ∈ parts, ∃ s ∈ texts, HoldsPart part s.toList

instance (parts : List (List Char)) (texts : List String) : Decidable (Tagged parts texts) :=
  inferInstanceAs (Decidable (∃ part ∈ parts, ∃ s ∈ texts, HoldsPart part s.toList))

/-- The tags of this name that a text can show. -/
def shownTags (tag : List Char) : List (List Char) := shownEnds.map (tag ++ [·])

def Node.shownTexts (n : Node) : List String := [n.id, n.name, n.kind, n.path]

def Edge.shownTexts (e : Edge) : List String := [e.source, e.target, e.kind]

def Graph.shownTexts (g : Graph) : List String :=
  g.nodes.flatMap Node.shownTexts ++ g.edges.flatMap Edge.shownTexts

def Node.shownAmounts (n : Node) : List Amount :=
  match n.position with
  | some p => [p.x, p.y]
  | none => []

def Graph.shownAmounts (g : Graph) : List Amount :=
  g.nodes.flatMap Node.shownAmounts ++ g.edges.map (·.weight)

section Texts

variable {part : List Char}

theorem exists_mem_flatMap {α β : Type} {xs : List α} {f : α → List β} {P : β → Prop} :
    (∃ b ∈ xs.flatMap f, P b) ↔ ∃ a ∈ xs, ∃ b ∈ f a, P b := by
  simp only [List.mem_flatMap]
  exact ⟨fun ⟨b, ⟨a, ha, hb⟩, h⟩ => ⟨a, ha, b, hb, h⟩, fun ⟨a, ha, b, hb, h⟩ => ⟨b, ⟨a, ha, hb⟩, h⟩⟩

theorem itemTexts_eq (vs : List Json) : itemTexts vs = vs.flatMap texts := by
  induction vs with
  | nil => rfl
  | cons v vs ih => rw [itemTexts, ih, List.flatMap_cons]

theorem texts_ofAmount (a : Amount) : texts (.ofAmount a) = [] := by
  cases a <;> rfl

theorem lt_notMem_nodeColor (kind : String) : '<' ∉ (nodeColor kind).toList := by
  unfold nodeColor
  split <;> rw [String.toList_ofList] <;> decide

theorem lt_notMem_nodeShape (kind : String) : '<' ∉ (nodeShape kind).toList := by
  unfold nodeShape
  split <;> rw [String.toList_ofList] <;> decide

theorem holdsPart_title (hpart : IsMark part) (kind path : String) :
    HoldsPart part (kind ++ ": " ++ path).toList ↔
      HoldsPart part kind.toList ∨ HoldsPart part path.toList := by
  have htitle : (kind ++ ": " ++ path).toList = kind.toList ++ ':' :: ' ' :: path.toList := by simp
  rw [htitle, hpart.holdsPart_append_cons (by decide), hpart.holdsPart_cons (by decide)]

theorem Node.exists_texts_viewed (hpart : IsMark part) (n : Node) :
    (∃ s ∈ n.viewed.texts, HoldsPart part s.toList) ↔
      ∃ s ∈ n.shownTexts, HoldsPart part s.toList := by
  have hcolor := hpart.not_holdsPart (lt_notMem_nodeColor n.kind)
  have hshape := hpart.not_holdsPart (lt_notMem_nodeShape n.kind)
  cases hpos : n.position <;>
    simp [Node.shownTexts, Node.viewed, hpos, texts, memberTexts, texts_ofAmount,
      holdsPart_title hpart, hcolor, hshape, hpart.not_holdsPart, -String.toList_append]

theorem Edge.exists_texts_viewed (hpart : IsMark part) (e : Edge) :
    (∃ s ∈ e.viewed.texts, HoldsPart part s.toList) ↔
      ∃ s ∈ e.shownTexts, HoldsPart part s.toList := by
  simp [Edge.shownTexts, Edge.viewed, texts, memberTexts, texts_ofAmount, hpart.not_holdsPart]

theorem Graph.exists_texts_viewed (hpart : IsMark part) (g : Graph) :
    (∃ s ∈ g.viewed.texts, HoldsPart part s.toList) ↔
      ∃ s ∈ g.shownTexts, HoldsPart part s.toList := by
  have hnames : ¬ HoldsPart part "nodes".toList ∧ ¬ HoldsPart part "edges".toList := by
    simp [hpart.not_holdsPart]
  have hdata : (∃ s ∈ g.viewed.texts, HoldsPart part s.toList) ↔
      (∃ n ∈ g.nodes, ∃ s ∈ n.viewed.texts, HoldsPart part s.toList) ∨
        ∃ e ∈ g.edges, ∃ s ∈ e.viewed.texts, HoldsPart part s.toList := by
    simp only [Graph.viewed, texts, memberTexts, itemTexts_eq, List.flatMap_map, List.append_nil,
      List.exists_mem_cons_iff, List.mem_append, or_and_right, exists_or, hnames, false_or,
      exists_mem_flatMap]
  simp only [hdata, Graph.shownTexts, List.mem_append, or_and_right, exists_or,
    exists_mem_flatMap, Node.exists_texts_viewed hpart, Edge.exists_texts_viewed hpart]

theorem Graph.holdsPart_viewed (hpart : IsMark part) (hplain : part ⊆ plainChars) (g : Graph) :
    HoldsPart part g.viewed.line.toList ↔ ∃ s ∈ g.shownTexts, HoldsPart part s.toList :=
  (holdsPart_line_iff hpart hplain _).trans (g.exists_texts_viewed hpart)

/-- A tag in the data is a tag that a text shows, as control characters are escaped. -/
theorem Graph.holdsTag_viewed (htag : IsMark part) (hplain : part ⊆ plainChars) (g : Graph) :
    HoldsTag part g.viewed.line.toList ↔ Tagged (shownTags part) g.shownTexts := by
  have hmark : ∀ d ∈ tagEnds, IsMark (part ++ [d]) := fun d hd => by
    refine ⟨?_, concat_subset htag.2 (tagEnds_subset hd)⟩
    rw [List.head?_append, htag.1, Option.some_or]
  have hshown : ∀ d ∈ shownEnds, HoldsPart (part ++ [d]) g.viewed.line.toList ↔
      ∃ s ∈ g.shownTexts, HoldsPart (part ++ [d]) s.toList := fun d hd => by
    have hends : shownEnds ⊆ plainChars := by decide
    refine g.holdsPart_viewed (hmark d (List.mem_append_left _ hd)) ?_
    exact concat_subset hplain (hends hd)
  simp only [HoldsTag, Tagged, shownTags, List.mem_map, exists_exists_and_eq_and]
  constructor
  · rintro ⟨d, hd, hdata⟩
    rcases List.mem_append.mp hd with hmem | hcontrol
    · exact ⟨d, hmem, (hshown d hmem).mp hdata⟩
    · have hlast : d ∈ part ++ [d] := List.mem_append_right _ List.mem_cons_self
      exact absurd hdata (not_holdsPart_line (hmark d hd) hlast hcontrol _)
  · rintro ⟨d, hmem, htexts⟩
    exact ⟨d, List.mem_append_left _ hmem, (hshown d hmem).mpr htexts⟩

end Texts

section Numbers

variable {levels : ℕ}

theorem fits_ofAmount {a : Amount}
    (h : ∀ n, a = .whole n → Decimal.digitCount n.natAbs ≤ Reader.mostDigits) :
    Fits levels (.ofAmount a) := by
  cases a with
  | whole n => exact h n rfl
  | real x => trivial
  | flag b => trivial

/-- The whole numbers among the amounts are short enough to be read. -/
def ShortNumbers (amounts : List Amount) : Prop :=
  ∀ n, .whole n ∈ amounts → Decimal.digitCount n.natAbs ≤ Reader.mostDigits

theorem Node.fits_viewed {n : Node} (h : ShortNumbers n.shownAmounts) :
    Fits (levels + 1) n.viewed := by
  unfold Node.shownAmounts at h
  cases hpos : n.position with
  | none => simp [Node.viewed, hpos, Fits, MembersFit]
  | some p =>
    rw [hpos] at h
    have hx : Fits levels (.ofAmount p.x) := fits_ofAmount fun n hn => h n (by simp [hn])
    have hy : Fits levels (.ofAmount p.y) := fits_ofAmount fun n hn => h n (by simp [hn])
    simp [Node.viewed, hpos, Fits, MembersFit, hx, hy]

theorem Edge.fits_viewed {e : Edge} (h : ShortNumbers [e.weight]) :
    Fits (levels + 1) e.viewed := by
  have hweight : Fits levels (.ofAmount e.weight) := fits_ofAmount fun n hn => h n (by simp [hn])
  simp [Edge.viewed, Fits, MembersFit, hweight]

theorem Graph.fits_viewed {g : Graph} (h : ShortNumbers g.shownAmounts) :
    Fits Reader.mostLevels g.viewed := by
  have hnodes : ∀ n ∈ g.nodes, ShortNumbers n.shownAmounts := fun n hn k hk =>
    h k (List.mem_append_left _ (List.mem_flatMap.mpr ⟨n, hn, hk⟩))
  have hedges : ∀ e ∈ g.edges, ShortNumbers [e.weight] := fun e he k hk => by
    refine h k (List.mem_append_right _ (List.mem_map.mpr ⟨e, he, ?_⟩))
    exact (List.mem_singleton.mp hk).symm
  have hnodes' : ItemsFit 9995 (g.nodes.map Node.viewed) := itemsFit_iff.mpr fun v hv => by
    obtain ⟨n, hn, rfl⟩ := List.mem_map.mp hv
    exact Node.fits_viewed (hnodes n hn)
  have hedges' : ItemsFit 9995 (g.edges.map Edge.viewed) := itemsFit_iff.mpr fun v hv => by
    obtain ⟨e, he, rfl⟩ := List.mem_map.mp hv
    exact Edge.fits_viewed (hedges e he)
  simp [Graph.viewed, Reader.mostLevels, Fits, MembersFit, hnodes', hedges']

end Numbers

/-! ## Pages of graphs -/

/-- **The script of a page is whole unless a text that is shown cuts it off or keeps it open.** If
no text opens a comment, it is whole just if no text shows an end tag. Out of a whole script the
data are read as they were put in. -/
theorem Graph.html_script_whole_iff (g : Graph) (focus : String) :
    let part := g.focused focus
    let whole := pageScript? (g.html focus) = some (scriptOf part.viewed.line)
    (HoldsPart endTag part.viewed.line.toList ↔ Tagged [endTag] part.shownTexts) ∧
    (whole ↔ ∃ m, ScriptMode.plain.run part.viewed.line.toList = some m ∧ m ≠ .doubled) ∧
    (¬ Tagged [commentStart] part.shownTexts →
      (whole ↔ ¬ Tagged (shownTags endTag) part.shownTexts)) ∧
    (¬ Tagged (shownTags endTag) part.shownTexts →
      ¬ Tagged (shownTags startTag) part.shownTexts → whole) ∧
    (ShortNumbers part.shownAmounts →
      Json.parse part.viewed.line = .ok part.viewed ∧
      (whole → pageValue? (g.html focus) = some part.viewed)) := by
  intro part whole
  have htagged {mark : List Char} : Tagged [mark] part.shownTexts ↔
      ∃ s ∈ part.shownTexts, HoldsPart mark s.toList := by
    simp [Tagged]
  have hend := part.holdsTag_viewed (by decide : IsMark endTag) (by decide)
  have hstart := part.holdsTag_viewed (by decide : IsMark startTag) (by decide)
  have hwhole : whole ↔
      ∃ m, ScriptMode.plain.run part.viewed.line.toList = some m ∧ m ≠ .doubled :=
    pageScript?_page_iff _ _ _
  refine ⟨?_, hwhole, fun hcomment => ?_, fun hnoend hnostart => ?_, fun hshort => ?_⟩
  · rw [htagged]
    exact part.holdsPart_viewed (by decide) (by decide)
  · rw [htagged, ← part.holdsPart_viewed (by decide) (by decide)] at hcomment
    obtain ⟨hcut, hgoes⟩ := ScriptMode.run_plain hcomment
    rw [hwhole, ← hend]
    constructor
    · rintro ⟨m, hm, -⟩ htag
      rw [hcut.mpr htag] at hm
      cases hm
    · exact fun htag => ⟨_, hgoes.mpr htag, by decide⟩
  · rw [← hend] at hnoend
    rw [← hstart] at hnostart
    exact hwhole.mpr (ScriptMode.exists_run hnoend hnostart (by decide))
  · have hfits : Fits Reader.mostLevels part.viewed := Graph.fits_viewed hshort
    refine ⟨parse_line hfits, fun hscript => ?_⟩
    rw [pageValue?, show pageScript? (g.html focus) = _ from hscript, Option.bind_some,
      scriptValue?_scriptOf hfits]

/-- A graph whose page shows what comes near to an end tag, and numbers of each kind. -/
def plainGraph : Graph where
  nodes :=
    [{ id := "</scripts", kind := "</script", name := "< /script>", path := "</scrip\"t>"
       position := some { x := .whole (-3), y := .real 0.5 } }]
  edges := [{ id := "e", source := "<", target := "/script>", kind := "<!-", weight := .whole 2 }]
  metadata := { generatedAt := "" }

theorem html_script_whole_plain :
    pageScript? (plainGraph.html "") = some (scriptOf plainGraph.viewed.line) ∧
      pageValue? (plainGraph.html "") = some plainGraph.viewed := by
  have hfocused : plainGraph.focused "" = plainGraph := rfl
  have hcomment : ¬ Tagged [commentStart] plainGraph.shownTexts := by decide +kernel
  have hplain : ¬ Tagged (shownTags endTag) plainGraph.shownTexts := by decide +kernel
  have hshort : ShortNumbers plainGraph.shownAmounts := fun n hn => by
    obtain rfl | rfl : n = -3 ∨ n = 2 := by simpa [plainGraph, Graph.shownAmounts,
      Node.shownAmounts] using hn
    all_goals decide
  obtain ⟨-, -, hscript, -, hread⟩ := Graph.html_script_whole_iff plainGraph ""
  rw [hfocused] at hscript hread
  have hwhole := (hscript hcomment).mpr hplain
  exact ⟨hwhole, (hread hshort).2 hwhole⟩

def namedGraph (name : String) : Graph where
  nodes := [{ id := "a", kind := "file", name := name, path := "p" }]
  edges := []
  metadata := { generatedAt := "" }

/-- **Scripts that do not end where the page ends them**: one that an end tag cuts off, and one that
a script in a comment keeps open. -/
theorem html_script_cut_off :
    HoldsPart endTag ((namedGraph "</SCRIPT>").focused "").viewed.line.toList ∧
    pageScript? ((namedGraph "</SCRIPT>").html "") =
      some "\n    const data = \x7b\"nodes\": [\x7b\"id\": \"a\", \"label\": \"".toList ∧
    pageValue? ((namedGraph "</SCRIPT>").html "") = none ∧
    ¬ Tagged [endTag] (namedGraph "<!--<script>").shownTexts ∧
    pageScript? ((namedGraph "<!--<script>").html "") = none := by
  have htagged : ∃ s ∈ ((namedGraph "</SCRIPT>").focused "").shownTexts,
      HoldsPart endTag s.toList := by decide +kernel
  have hscript : pageScript? ((namedGraph "</SCRIPT>").html "") =
      some "\n    const data = \x7b\"nodes\": [\x7b\"id\": \"a\", \"label\": \"".toList := by
    refine (pageScript?_page _ _ _).trans ?_
    decide +kernel
  refine ⟨(Graph.holdsPart_viewed (by decide) (by decide) _).mpr htagged, hscript, ?_,
    by decide +kernel, pageScript?_page_of_run (m := .doubled) (by decide +kernel) _ _⟩
  rw [pageValue?, hscript, Option.bind_some, ← Option.isNone_iff_eq_none]
  decide +kernel

end CodeAtlas
