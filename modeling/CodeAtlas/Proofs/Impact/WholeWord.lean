import CodeAtlas.Proofs.Impact.Lines
import CodeAtlas.Proofs.Text.Classes
import CodeAtlas.Proofs.Text.Matching
import CodeAtlas.Proofs.Text.Part

/-!
# Lines that use a symbol

A line is looked at up to its first comment. It uses a symbol also if the symbol is only a part of a
longer word, where that comes after `import` or `from`, or begins what a class extends.

* **`usages_are_words_or_parts`**: the lines that are reported.
-/

namespace CodeAtlas

open Text

/-! ## The code of a line -/

def CommentAt (rest : List Char) : Prop := ['/', '/'] <+: rest ∨ ['#'] <+: rest

/-- The code of a line: what stands before its first comment. -/
structure IsCode (line code : List Char) : Prop where
  splits : ∃ rest, line = code ++ rest ∧ (rest = [] ∨ CommentAt rest)
  first : ∀ before rest, line = before ++ rest → CommentAt rest → code.length ≤ before.length

theorem IsCode.unique {line code code' : List Char} (h : IsCode line code)
    (h' : IsCode line code') : code = code' := by
  obtain ⟨rest, hsplit, hrest⟩ := h.splits
  obtain ⟨rest', hsplit', hrest'⟩ := h'.splits
  have hlength : ∀ {a b r s : List Char}, IsCode line b → line = a ++ r → line = b ++ s →
      r = [] ∨ CommentAt r → b.length ≤ a.length := by
    intro a b r s hb har hbs hr
    rcases hr with rfl | hr
    · have heq := congrArg List.length (har.symm.trans hbs)
      simp only [List.length_append, List.length_nil] at heq
      omega
    · exact hb.first a r har hr
  have hle := hlength h' hsplit hsplit' hrest
  have hge := hlength h hsplit' hsplit hrest'
  exact (List.append_inj (hsplit.symm.trans hsplit') (by omega)).1

theorem before_spec (part cs : List Char) :
    (∃ rest, cs = before part cs ++ rest ∧ (rest = [] ∨ part <+: rest)) ∧
      ∀ head rest, cs = head ++ rest → part <+: rest → (before part cs).length ≤ head.length := by
  induction cs with
  | nil => exact ⟨⟨[], rfl, Or.inl rfl⟩, fun head rest _ _ => Nat.zero_le _⟩
  | cons c cs ih =>
    obtain ⟨⟨rest, hsplit, hrest⟩, hfirst⟩ := ih
    rw [before]
    by_cases hhere : part.isPrefixOf (c :: cs) = true
    · rw [if_pos hhere]
      exact ⟨⟨c :: cs, rfl, Or.inr (List.isPrefixOf_iff_prefix.mp hhere)⟩,
        fun head rest _ _ => Nat.zero_le _⟩
    · rw [if_neg hhere]
      refine ⟨⟨rest, congrArg (c :: ·) hsplit, hrest⟩, fun head tail hcut htail => ?_⟩
      cases head with
      | nil =>
        obtain rfl : c :: cs = tail := hcut
        exact absurd (List.isPrefixOf_iff_prefix.mpr htail) hhere
      | cons d head =>
        obtain ⟨-, rfl⟩ := List.cons.inj hcut
        exact Nat.succ_le_succ (hfirst head tail rfl htail)

/-- **The line without its comment** is its code. -/
theorem isCode_withoutComment (line : String) :
    IsCode line.toList (withoutComment line).toList := by
  have hcode : (withoutComment line).toList = before ['#'] (before ['/', '/'] line.toList) := by
    change (String.ofList (before ['#']
      (String.ofList (before ['/', '/'] line.toList)).toList)).toList = _
    rw [String.toList_ofList, String.toList_ofList]
  rw [hcode]
  obtain ⟨⟨tail, hline, htail⟩, hslashes⟩ := before_spec ['/', '/'] line.toList
  obtain ⟨⟨rest, hhead, hrest⟩, hhash⟩ := before_spec ['#'] (before ['/', '/'] line.toList)
  have hle := congrArg List.length hhead
  rw [List.length_append] at hle
  refine ⟨⟨rest ++ tail, ?_, ?_⟩, fun start post hcut hcomment => ?_⟩
  · rw [← List.append_assoc, ← hhead]
    exact hline
  · rcases hrest with rfl | hrest
    · exact htail.imp_right Or.inl
    · exact Or.inr (Or.inr (hrest.trans (List.prefix_append rest tail)))
  · rcases hcomment with hcomment | hcomment
    · have := hslashes start post hcut hcomment
      omega
    · -- a hash is either in what stands before the slashes, or behind all of it
      by_cases hlong : (before ['/', '/'] line.toList).length ≤ start.length
      · omega
      · have hstart : start <+: before ['/', '/'] line.toList :=
          List.prefix_of_prefix_length_le ⟨post, hcut.symm⟩ ⟨tail, hline.symm⟩ (by omega)
        obtain ⟨middle, hmiddle⟩ := hstart
        have hpost : post = middle ++ tail := by
          rw [hline, ← hmiddle, List.append_assoc] at hcut
          exact (List.append_cancel_left hcut).symm
        refine hhash start middle hmiddle.symm ?_
        cases middle with
        | nil =>
          rw [List.append_nil] at hmiddle
          exact absurd (Nat.le_of_eq (congrArg List.length hmiddle.symm)) hlong
        | cons c middle =>
          rw [hpost, List.cons_append] at hcomment
          obtain ⟨rfl, -⟩ := List.cons_prefix_cons.mp hcomment
          exact List.cons_prefix_cons.mpr ⟨rfl, List.nil_prefix⟩

/-! ## Symbols in code -/

/-- The word stands in the code with no word character beside it. -/
def WholeWordIn (word code : List Char) : Prop :=
  ∃ head tail, code = head ++ (word ++ tail) ∧ wordThere head.getLast? = false ∧
    wordThere tail.head? = false

/-- The characters stand in the code somewhere after a keyword and a blank. -/
def FollowsIn (keyword word code : List Char) : Prop :=
  ∃ head blank gap tail, code = head ++ (keyword ++ (blank :: gap ++ (word ++ tail))) ∧
    wordThere head.getLast? = false ∧ isBlank blank = true

def RunOf (p : Char → Bool) (cs : List Char) : Prop := cs ≠ [] ∧ ∀ c ∈ cs, p c = true

/-- The characters begin what a class extends. -/
def ExtendedIn (word code : List Char) : Prop :=
  ∃ head gap name gap' gap'' tail,
    code = head ++ ("class".toList ++ (gap ++ (name ++ (gap' ++ ("extends".toList ++
      (gap'' ++ (word ++ tail))))))) ∧
    wordThere head.getLast? = false ∧ RunOf isBlank gap ∧ RunOf isWord name ∧
    RunOf isBlank gap' ∧ RunOf isBlank gap''

section Forms

variable {previous : Option Char} {piece following : List Char}

theorem atEdge_before {c : Char} (hc : isWord c = true) :
    atEdge previous (some c) = true ↔ wordThere previous = false := by
  rw [atEdge, wordThere, wordThere, Option.any_some, hc]
  cases previous.any isWord <;> decide

theorem atEdge_after {next : Option Char} (h : wordThere previous = true) :
    atEdge previous next = true ↔ wordThere next = false := by
  rw [atEdge, h]
  cases wordThere next <;> decide

theorem fits_edge_literal {s : String} (hs : wordThere s.toList.head? = true) :
    Fits ([.edge] ++ Pattern.literal s) previous piece following ↔
      piece = s.toList ∧ wordThere previous = false := by
  have hedge : ∀ tail : List Char,
      atEdge previous (s.toList ++ tail).head? = true ↔ wordThere previous = false := by
    intro tail
    cases hlist : s.toList with
    | nil =>
      rw [hlist] at hs
      cases hs
    | cons c cs =>
      rw [hlist] at hs
      exact atEdge_before hs
  rw [fits_append]
  constructor
  · rintro ⟨first, second, rfl, hfirst, hsecond⟩
    obtain ⟨rfl, hat⟩ := fits_edge.mp hfirst
    obtain rfl := fits_literal.mp hsecond
    exact ⟨rfl, (hedge following).mp hat⟩
  · rintro ⟨rfl, hprevious⟩
    exact ⟨[], s.toList, rfl, fits_edge.mpr ⟨rfl, (hedge following).mpr hprevious⟩,
      fits_literal.mpr rfl⟩

variable {symbol : String} {code : String}

theorem occursIn_whole_iff (hhead : wordThere symbol.toList.head? = true)
    (hlast : wordThere symbol.toList.getLast? = true) :
    Pattern.occursIn ([.edge] ++ Pattern.literal symbol ++ [.edge]) code = true ↔
      WholeWordIn symbol.toList code.toList := by
  have hafter : ∀ previous, wordThere (lastOf previous symbol.toList) = true := by
    intro previous
    cases h : symbol.toList.getLast? with
    | none =>
      rw [h] at hlast
      cases hlast
    | some c =>
      rw [h] at hlast
      rw [lastOf, h]
      exact hlast
  rw [Pattern.occursIn_iff]
  constructor
  · rintro ⟨head, piece, tail, hsplit, hfits⟩
    obtain ⟨first, second, rfl, hfirst, hsecond⟩ := fits_append.mp hfits
    obtain ⟨rfl, hprevious⟩ := (fits_edge_literal hhead).mp hfirst
    obtain ⟨rfl, hat⟩ := fits_edge.mp hsecond
    rw [List.append_nil] at hsplit
    exact ⟨head, tail, hsplit, hprevious, (atEdge_after (hafter _)).mp hat⟩
  · rintro ⟨head, tail, hsplit, hprevious, hnext⟩
    refine ⟨head, symbol.toList, tail, hsplit, fits_append.mpr ⟨symbol.toList, [], ?_, ?_, ?_⟩⟩
    · rw [List.append_nil]
    · exact (fits_edge_literal hhead).mpr ⟨rfl, hprevious⟩
    · exact fits_edge.mpr ⟨rfl, (atEdge_after (hafter _)).mpr hnext⟩

theorem wholeWordIn_of_mark (hhead : wordThere symbol.toList.head? = true) {mark : String}
    (hmark : wordThere mark.toList.head? = false) (hne : mark.toList ≠ [])
    (h : Pattern.occursIn ([.edge] ++ Pattern.literal symbol ++ maybeBlanks ++ Pattern.literal mark)
      code = true) : WholeWordIn symbol.toList code.toList := by
  obtain ⟨head, piece, tail, hsplit, hfits⟩ := Pattern.occursIn_iff.mp h
  obtain ⟨_, marked, rfl, hfits, hmarked⟩ := fits_append.mp hfits
  obtain ⟨first, blanks, rfl, hfirst, hblanks⟩ := fits_append.mp hfits
  obtain ⟨rfl, hprevious⟩ := (fits_edge_literal hhead).mp hfirst
  obtain rfl := fits_literal.mp hmarked
  refine ⟨head, blanks ++ (mark.toList ++ tail), ?_, hprevious, ?_⟩
  · rw [hsplit, List.append_assoc, List.append_assoc]
  · cases blanks with
    | nil =>
      obtain ⟨c, cs, hcons⟩ := List.exists_cons_of_ne_nil hne
      rw [hcons] at hmark ⊢
      exact hmark
    | cons b blanks => exact isWord_of_isBlank (fits_many.mp hblanks b List.mem_cons_self)

theorem occursIn_follows_iff {word : String} (hword : wordThere word.toList.head? = true)
    (hline : '\n' ∉ code.toList) :
    Pattern.occursIn ([.edge] ++ Pattern.literal word ++ Pattern.blanks ++ anything ++
      Pattern.literal symbol) code = true ↔
      FollowsIn word.toList symbol.toList code.toList := by
  rw [Pattern.occursIn_iff]
  constructor
  · rintro ⟨head, piece, tail, hsplit, hfits⟩
    obtain ⟨_, last, rfl, hfits, hlast⟩ := fits_append.mp hfits
    obtain ⟨_, gap, rfl, hfits, -⟩ := fits_append.mp hfits
    obtain ⟨first, blanks, rfl, hfirst, hblanks⟩ := fits_append.mp hfits
    obtain ⟨rfl, hprevious⟩ := (fits_edge_literal hword).mp hfirst
    obtain rfl := fits_literal.mp hlast
    obtain ⟨hne, hall⟩ := fits_some.mp hblanks
    obtain ⟨b, blanks, rfl⟩ := List.exists_cons_of_ne_nil hne
    refine ⟨head, b, blanks ++ gap, tail, ?_, hprevious, hall b List.mem_cons_self⟩
    simp only [hsplit, List.append_assoc, List.cons_append]
  · rintro ⟨head, b, gap, tail, hsplit, hprevious, hb⟩
    have hgap : ∀ c ∈ gap, (c != '\n') = true := by
      intro c hc
      refine bne_iff_ne.mpr fun heq => hline ?_
      rw [hsplit, ← heq]
      simp [hc]
    refine ⟨head, word.toList ++ [b] ++ gap ++ symbol.toList, tail, ?_, ?_⟩
    · simp only [hsplit, List.append_assoc, List.cons_append, List.nil_append]
    · refine fits_append.mpr ⟨_, _, rfl, ?_, fits_literal.mpr rfl⟩
      refine fits_append.mpr ⟨_, _, rfl, ?_, fits_many.mpr hgap⟩
      refine fits_append.mpr ⟨_, _, rfl, (fits_edge_literal hword).mpr ⟨rfl, hprevious⟩, ?_⟩
      exact fits_some.mpr ⟨List.cons_ne_nil b [], by simpa using hb⟩

theorem occursIn_extended_iff :
    Pattern.occursIn ([.edge] ++ Pattern.literal "class" ++ Pattern.blanks ++ Pattern.word ++
      Pattern.blanks ++ Pattern.literal "extends" ++ Pattern.blanks ++ Pattern.literal symbol)
      code = true ↔ ExtendedIn symbol.toList code.toList := by
  have hclass : wordThere "class".toList.head? = true := by decide
  rw [Pattern.occursIn_iff]
  constructor
  · rintro ⟨head, piece, tail, hsplit, hfits⟩
    obtain ⟨_, last, rfl, hfits, hlast⟩ := fits_append.mp hfits
    obtain ⟨_, gap'', rfl, hfits, hgap''⟩ := fits_append.mp hfits
    obtain ⟨_, extends', rfl, hfits, hextends⟩ := fits_append.mp hfits
    obtain ⟨_, gap', rfl, hfits, hgap'⟩ := fits_append.mp hfits
    obtain ⟨_, name, rfl, hfits, hname⟩ := fits_append.mp hfits
    obtain ⟨first, gap, rfl, hfirst, hgap⟩ := fits_append.mp hfits
    obtain ⟨rfl, hprevious⟩ := (fits_edge_literal hclass).mp hfirst
    obtain rfl := fits_literal.mp hlast
    obtain rfl := fits_literal.mp hextends
    refine ⟨head, gap, name, gap', gap'', tail, ?_, hprevious, fits_some.mp hgap,
      fits_some.mp hname, fits_some.mp hgap', fits_some.mp hgap''⟩
    simp only [hsplit, List.append_assoc]
  · rintro ⟨head, gap, name, gap', gap'', tail, hsplit, hprevious, hgap, hname, hgap', hgap''⟩
    refine ⟨head, "class".toList ++ gap ++ name ++ gap' ++ "extends".toList ++ gap'' ++
      symbol.toList, tail, ?_, ?_⟩
    · simp only [hsplit, List.append_assoc]
    · refine fits_append.mpr ⟨_, _, rfl, ?_, fits_literal.mpr rfl⟩
      refine fits_append.mpr ⟨_, _, rfl, ?_, fits_some.mpr hgap''⟩
      refine fits_append.mpr ⟨_, _, rfl, ?_, fits_literal.mpr rfl⟩
      refine fits_append.mpr ⟨_, _, rfl, ?_, fits_some.mpr hgap'⟩
      refine fits_append.mpr ⟨_, _, rfl, ?_, fits_some.mpr hname⟩
      refine fits_append.mpr ⟨_, _, rfl, ?_, fits_some.mpr hgap⟩
      exact (fits_edge_literal hclass).mpr ⟨rfl, hprevious⟩

end Forms

/-- The symbol is a whole word, or comes after `import` or `from`, or begins what a class
extends. -/
theorem usesSymbol_iff {symbol code : String} (hne : symbol ≠ "")
    (hword : ∀ c ∈ symbol.toList, isWord c = true) (hline : '\n' ∉ code.toList) :
    usesSymbol code symbol = true ↔
      WholeWordIn symbol.toList code.toList ∨
        FollowsIn "import".toList symbol.toList code.toList ∨
        FollowsIn "from".toList symbol.toList code.toList ∨
        ExtendedIn symbol.toList code.toList := by
  have hlist : symbol.toList ≠ [] := fun h => hne (String.toList_eq_nil_iff.mp h)
  have hhead : wordThere symbol.toList.head? = true := by
    rw [List.head?_eq_some_head hlist]
    exact hword _ (List.head_mem hlist)
  have hlast : wordThere symbol.toList.getLast? = true := by
    rw [List.getLast?_eq_some_getLast hlist]
    exact hword _ (List.getLast_mem hlist)
  have himport : wordThere "import".toList.head? = true := by decide
  have hfrom : wordThere "from".toList.head? = true := by decide
  simp only [usesSymbol, usagePatterns, List.any_cons, List.any_nil, Bool.or_eq_true,
    Bool.or_false, occursIn_whole_iff hhead hlast, occursIn_follows_iff himport hline,
    occursIn_follows_iff hfrom hline, occursIn_extended_iff]
  constructor
  · rintro (h | h | h | h | h | h)
    · exact Or.inl (wholeWordIn_of_mark hhead (by decide) (by decide) h)
    · exact Or.inl (wholeWordIn_of_mark hhead (by decide) (by decide) h)
    · exact Or.inr (Or.inr (Or.inr h))
    · exact Or.inr (Or.inl h)
    · exact Or.inr (Or.inr (Or.inl h))
    · exact Or.inl h
  · rintro (h | h | h | h)
    · exact Or.inr (Or.inr (Or.inr (Or.inr (Or.inr h))))
    · exact Or.inr (Or.inr (Or.inr (Or.inl h)))
    · exact Or.inr (Or.inr (Or.inr (Or.inr (Or.inl h))))
    · exact Or.inr (Or.inr (Or.inl h))

/-! ## The lines of a text -/

section Lines

variable {test : String → Bool} {lines : List String}

theorem not_mem_linesOf {text line : String} (h : line ∈ linesOf text) : '\n' ∉ line.toList := by
  obtain ⟨piece, hpiece, rfl⟩ := List.mem_map.mp h
  rw [String.toList_ofList]
  exact Text.not_mem_pieces hpiece

theorem pairwise_linesWith : (Change.linesWith test lines).Pairwise (· < ·) := by
  have hnumbers : ((lines.zipIdx 1).map Prod.snd).Pairwise (· < ·) := by
    rw [List.zipIdx_map_snd]
    exact List.pairwise_lt_range'
  rw [List.pairwise_map] at hnumbers
  exact List.pairwise_map.mpr ((hnumbers.filter _).imp Int.ofNat_lt.mpr)

theorem mem_linesWith {m : Int} : m ∈ Change.linesWith test lines ↔
    ∃ (n : ℕ) (line : String), m = n + 1 ∧ lines[n]? = some line ∧ test line = true := by
  constructor
  · intro h
    obtain ⟨⟨line, k⟩, hmem, rfl⟩ := List.mem_map.mp h
    obtain ⟨hzip, htest⟩ := List.mem_filter.mp hmem
    obtain ⟨hk, hget⟩ := List.mk_mem_zipIdx_iff_le_and_getElem?_sub.mp hzip
    exact ⟨k - 1, line, by omega, hget, htest⟩
  · rintro ⟨n, line, rfl, hget, htest⟩
    refine List.mem_map.mpr ⟨(line, n + 1), List.mem_filter.mpr ⟨?_, htest⟩, rfl⟩
    exact List.mk_mem_zipIdx_iff_le_and_getElem?_sub.mpr ⟨Nat.le_add_left 1 n, hget⟩

theorem lines_usagesFrom (file symbol : String) (before lines : List String) (number : ℕ) :
    (usagesFrom file symbol before number lines).map (·.line) =
      ((lines.zipIdx number).filter fun x => usesSymbol (withoutComment x.1) symbol).map
        fun x => (x.2 : Int) := by
  induction lines generalizing before number with
  | nil => rfl
  | cons line lines ih =>
    rw [usagesFrom, List.map_append, ih, List.zipIdx_cons, List.filter_cons]
    dsimp only
    split_ifs <;> rfl

theorem lines_usagesInText (file text symbol : String) :
    (usagesInText file text symbol).map (·.line) =
      Change.linesWith (fun line => usesSymbol (withoutComment line) symbol) (linesOf text) :=
  lines_usagesFrom file symbol [] (linesOf text) 1

end Lines

/-! ## What is reported -/

/-- **The lines that are reported**: those with the symbol as a whole word, and those where its
characters come after `import` or `from`, or begin what a class extends. -/
theorem usages_are_words_or_parts (file text symbol : String) (hne : symbol ≠ "")
    (hword : ∀ c ∈ symbol.toList, isWord c = true) :
    ((usagesInText file text symbol).map (·.line)).Pairwise (· < ·) ∧
    ∀ m : Int, m ∈ (usagesInText file text symbol).map (·.line) ↔
      ∃ (n : ℕ) (line : String) (code : List Char),
        m = n + 1 ∧ (linesOf text)[n]? = some line ∧ IsCode line.toList code ∧
        (WholeWordIn symbol.toList code ∨
          FollowsIn "import".toList symbol.toList code ∨
          FollowsIn "from".toList symbol.toList code ∨
          ExtendedIn symbol.toList code) := by
  rw [lines_usagesInText]
  refine ⟨pairwise_linesWith, fun m => ?_⟩
  have huses : ∀ line ∈ linesOf text, (usesSymbol (withoutComment line) symbol = true ↔
      WholeWordIn symbol.toList (withoutComment line).toList ∨
        FollowsIn "import".toList symbol.toList (withoutComment line).toList ∨
        FollowsIn "from".toList symbol.toList (withoutComment line).toList ∨
        ExtendedIn symbol.toList (withoutComment line).toList) := by
    intro line hmem
    refine usesSymbol_iff hne hword fun hnewline => not_mem_linesOf hmem ?_
    obtain ⟨rest, hsplit, -⟩ := (isCode_withoutComment line).splits
    rw [hsplit]
    exact List.mem_append_left rest hnewline
  rw [mem_linesWith]
  constructor
  · rintro ⟨n, line, hm, hget, htest⟩
    exact ⟨n, line, _, hm, hget, isCode_withoutComment line,
      (huses line (List.mem_of_getElem? hget)).mp htest⟩
  · rintro ⟨n, line, code, hm, hget, hcode, hform⟩
    rw [hcode.unique (isCode_withoutComment line)] at hform
    exact ⟨n, line, hm, hget, (huses line (List.mem_of_getElem? hget)).mpr hform⟩

/-- A call, and longer words after `import` and elsewhere: two lines are reported. -/
theorem usages_are_words_or_parts_foo :
    "foo" ≠ "" ∧ (∀ c ∈ "foo".toList, isWord c = true) ∧
    (usagesInText "a.ts" "foo(1)\nimport foobar\nfoobar // foo" "foo").map (·.line) = [1, 2] ∧
    (∃ code, IsCode "foo(1)".toList code ∧ (WholeWordIn "foo".toList code ∨
      FollowsIn "import".toList "foo".toList code ∨ FollowsIn "from".toList "foo".toList code ∨
      ExtendedIn "foo".toList code)) ∧
    ¬ ∃ code, IsCode "foobar // foo".toList code ∧ (WholeWordIn "foo".toList code ∨
      FollowsIn "import".toList "foo".toList code ∨ FollowsIn "from".toList "foo".toList code ∨
      ExtendedIn "foo".toList code) := by
  have hlines : (usagesInText "a.ts" "foo(1)\nimport foobar\nfoobar // foo" "foo").map (·.line) =
      [1, 2] := by decide +kernel
  have hsplit : linesOf "foo(1)\nimport foobar\nfoobar // foo" =
      ["foo(1)", "import foobar", "foobar // foo"] := by decide +kernel
  have hall : "foo".toList.all isWord = true := by decide
  have hword := List.all_eq_true.mp hall
  obtain ⟨-, hiff⟩ := usages_are_words_or_parts "a.ts" "foo(1)\nimport foobar\nfoobar // foo"
    "foo" (by decide) hword
  rw [hlines, hsplit] at hiff
  refine ⟨by decide, hword, hlines, ?_, ?_⟩
  · obtain ⟨n, line, code, hm, hget, hcode⟩ := (hiff 1).mp (by decide)
    obtain rfl : n = 0 := by omega
    obtain rfl : "foo(1)" = line := Option.some.inj hget
    exact ⟨code, hcode⟩
  · rintro ⟨code, hcode⟩
    have hthird := (hiff 3).mpr ⟨2, "foobar // foo", code, rfl, rfl, hcode⟩
    exact absurd hthird (by decide)

/-- A line is reported for a part of a longer word. -/
theorem part_of_word_reported :
    (usagesInText "a.ts" "import foobar" "foo").map (·.line) = [1] ∧
    linesOf "import foobar" = ["import foobar"] ∧
    ¬ ∃ code, IsCode "import foobar".toList code ∧ WholeWordIn "foo".toList code := by
  refine ⟨by decide +kernel, by decide +kernel, ?_⟩
  rintro ⟨code, hcode, hwhole⟩
  rw [hcode.unique (isCode_withoutComment "import foobar")] at hwhole
  have hoccurs := (occursIn_whole_iff (by decide) (by decide)).mpr hwhole
  revert hoccurs
  decide +kernel

end CodeAtlas
