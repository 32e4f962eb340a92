import Mathlib.Algebra.Group.Nat.Even
import Mathlib.Data.List.Induction
import Mathlib.Order.Bounds.Basic
import CodeAtlas.Export.Text

/-!
# The tokens of a DOT text

A quoted string ends at the first quote after an even number of backslashes. Quotes are written with
a backslash in front, and backslashes as they are, so some texts end early and others run on.

* **`Graph.dot_tokens_iff`**: the graphs that have their tokens.
-/

namespace CodeAtlas

namespace Dot

/-! ## Reading -/

/-- A token of the DOT language; comments and texts in angle brackets are left out. -/
inductive Token where
  | word (cs : List Char)
  | mark (c : Char)
  | arrow
  | quoted (cs : List Char)
  | unclosed
  deriving DecidableEq

/-- Where a reader is. -/
inductive Place where
  | between
  | word (cs : List Char)
  /-- Behind the first half of an arrow. -/
  | dash
  /-- In a string, behind an odd number of backslashes or not. -/
  | quoted (cs : List Char) (odd : Bool)

def wordChar (c : Char) : Bool := c.isAlphanum || c == '_'

def enter (c : Char) : Place × List Token :=
  if c = '"' then (.quoted [] false, [])
  else if c = '-' then (.dash, [])
  else if wordChar c then (.word [c], [])
  else if c.isWhitespace then (.between, [])
  else (.between, [.mark c])

/-- One character: where the reader goes, and the tokens that end there. Lines that a backslash
joins are left apart: joining them would change what is in a string, and not where it ends. -/
def step : Place → Char → Place × List Token
  | .between, c => enter c
  | .word cs, c =>
    if wordChar c then (.word (cs ++ [c]), []) else ((enter c).1, .word cs :: (enter c).2)
  | .dash, c =>
    if c = '>' then (.between, [.arrow]) else ((enter c).1, .mark '-' :: (enter c).2)
  | .quoted cs odd, c =>
    if c = '"' then
      if odd then (.quoted (cs.dropLast ++ ['"']) false, []) else (.between, [.quoted cs])
    else (.quoted (cs ++ [c]) (c == '\\' && !odd), [])

def finish : Place → List Token
  | .between => []
  | .word cs => [.word cs]
  | .dash => [.mark '-']
  | .quoted _ _ => [.unclosed]

def skim : Place → List Char → Place × List Token
  | p, [] => (p, [])
  | p, c :: cs => ((skim (step p c).1 cs).1, (step p c).2 ++ (skim (step p c).1 cs).2)

def tokensFrom (p : Place) (cs : List Char) : List Token := (skim p cs).2 ++ finish (skim p cs).1

def tokens (text : String) : List Token := tokensFrom .between text.toList

theorem tokensFrom_cons (p : Place) (c : Char) (cs : List Char) :
    tokensFrom p (c :: cs) = (step p c).2 ++ tokensFrom (step p c).1 cs :=
  List.append_assoc _ _ _

theorem tokensFrom_append (p : Place) (cs ds : List Char) :
    tokensFrom p (cs ++ ds) = (skim p cs).2 ++ tokensFrom (skim p cs).1 ds := by
  induction cs generalizing p with
  | nil => rfl
  | cons c cs ih => rw [List.cons_append, tokensFrom_cons, ih, skim, List.append_assoc]

/-! ## Strings -/

def backslashes (cs : List Char) : ℕ := (cs.reverse.takeWhile (· == '\\')).length

/-- The quotes in the characters, and their end, come after evenly many backslashes each. -/
def Quotable (cs : List Char) : Prop :=
  Even (backslashes cs) ∧ ∀ front back, cs = front ++ '"' :: back → Even (backslashes front)

/-- A quote that can close the string that the characters begin with. -/
def Closes (cs : List Char) (i : ℕ) : Prop :=
  0 < i ∧ cs[i]? = some '"' ∧ Even (backslashes (cs.take i))

def escaped (cs : List Char) : List Char :=
  cs.flatMap fun c => if c = '"' then ['\\', '"'] else [c]

theorem toList_dotString (s : String) :
    (dotString s).toList = '"' :: (escaped s.toList ++ ['"']) := by
  simp [dotString, escapeQuotes, escaped]

section Backslashes

variable {c : Char} {cs front back : List Char}

theorem backslashes_concat (cs : List Char) (c : Char) :
    backslashes (cs ++ [c]) = if c = '\\' then backslashes cs + 1 else 0 := by
  by_cases hc : c = '\\' <;> simp [backslashes, hc]

theorem backslashes_concat_quote (cs : List Char) : backslashes (cs ++ ['"']) = 0 :=
  backslashes_concat cs '"'

theorem escaped_append (cs ds : List Char) : escaped (cs ++ ds) = escaped cs ++ escaped ds :=
  List.flatMap_append

@[simp]
theorem escaped_quote_cons (cs : List Char) : escaped ('"' :: cs) = '\\' :: '"' :: escaped cs := rfl

theorem escaped_cons (hc : c ≠ '"') (cs : List Char) : escaped (c :: cs) = c :: escaped cs := by
  simp [escaped, hc]

theorem backslashes_quote_cons (cs : List Char) : backslashes ('"' :: cs) = backslashes cs := by
  induction cs using List.reverseRecOn with
  | nil => rfl
  | append_singleton cs c ih => rw [← List.cons_append, backslashes_concat, backslashes_concat, ih]

theorem backslashes_escaped (cs : List Char) : backslashes (escaped cs) = backslashes cs := by
  induction cs using List.reverseRecOn with
  | nil => rfl
  | append_singleton cs c ih =>
    rw [escaped_append]
    by_cases hc : c = '"'
    · rw [hc, escaped_quote_cons, List.append_cons, backslashes_concat_quote]
      exact backslashes_concat_quote _
    · rw [escaped_cons hc]
      change backslashes (escaped cs ++ [c]) = _
      rw [backslashes_concat, backslashes_concat, ih]

theorem exists_of_escaped_eq (h : escaped cs = front ++ '"' :: back) :
    ∃ front' back', cs = front' ++ '"' :: back' ∧ front = escaped front' ++ ['\\'] := by
  induction cs generalizing front with
  | nil => simp [escaped] at h
  | cons c cs ih =>
    by_cases hc : c = '"'
    · subst hc
      -- the quote in question is this one, or one further on
      rw [escaped_quote_cons] at h
      rcases front with _ | ⟨d, _ | ⟨e, front⟩⟩
      · simp at h
      · simp only [List.cons_append, List.nil_append, List.cons.injEq] at h
        exact ⟨[], cs, rfl, by rw [← h.1]; rfl⟩
      · simp only [List.cons_append, List.cons.injEq] at h
        obtain ⟨front', back', rfl, rfl⟩ := ih h.2.2
        exact ⟨'"' :: front', back', rfl, by rw [← h.1, ← h.2.1]; rfl⟩
    · rw [escaped_cons hc] at h
      rcases front with _ | ⟨d, front⟩
      · exact absurd (List.cons.inj h).1 hc
      · simp only [List.cons_append, List.cons.injEq] at h
        obtain ⟨front', back', rfl, rfl⟩ := ih h.2
        exact ⟨c :: front', back', rfl, by rw [escaped_cons hc, List.cons_append, h.1]⟩

theorem closes_iff (front back : List Char) :
    Closes ('"' :: (front ++ '"' :: back)) (front.length + 1) ↔ Even (backslashes front) := by
  simp [Closes, backslashes_quote_cons]

theorem exists_of_closes {i : ℕ} (h : Closes ('"' :: cs) i) :
    ∃ front back, cs = front ++ '"' :: back ∧ i = front.length + 1 ∧ Even (backslashes front) := by
  obtain ⟨hpos, hquote, heven⟩ := h
  obtain ⟨i, rfl⟩ := Nat.exists_eq_add_of_lt hpos
  rw [Nat.zero_add] at hquote heven ⊢
  rw [List.getElem?_cons_succ] at hquote
  obtain ⟨hi, hget⟩ := List.getElem?_eq_some_iff.mp hquote
  have hdrop : cs.drop i = '"' :: cs.drop (i + 1) := by rw [List.drop_eq_getElem_cons hi, hget]
  refine ⟨cs.take i, cs.drop (i + 1), ?_, ?_, ?_⟩
  · rw [← hdrop, List.take_append_drop]
  · rw [List.length_take_of_le hi.le]
  · rwa [List.take_succ_cons, backslashes_quote_cons] at heven

/-- A text is quotable if the quote that closes its string is its last character. -/
theorem isLeast_closes_iff (s : String) :
    IsLeast {i | Closes (dotString s).toList i} ((dotString s).toList.length - 1) ↔
      Quotable s.toList := by
  rw [toList_dotString]
  generalize s.toList = cs
  have hlength : ('"' :: (escaped cs ++ ['"'])).length - 1 = (escaped cs).length + 1 := by simp
  rw [hlength]
  constructor
  · rintro ⟨hlast, hleast⟩
    refine ⟨backslashes_escaped cs ▸ (closes_iff _ _).mp hlast, ?_⟩
    rintro front back rfl
    by_contra hodd
    have hsplit : escaped (front ++ '"' :: back) ++ ['"'] =
        (escaped front ++ ['\\']) ++ '"' :: (escaped back ++ ['"']) := by
      simp [escaped_append]
    rw [hsplit] at hleast
    have hquote := hleast ((closes_iff _ _).mpr (by
      rw [backslashes_concat, if_pos rfl, backslashes_escaped]
      exact Nat.even_add_one.mpr hodd))
    simp [escaped_append] at hquote
  · rintro ⟨hend, hquotes⟩
    refine ⟨(closes_iff _ _).mpr ((backslashes_escaped cs).symm ▸ hend), fun i hi => ?_⟩
    obtain ⟨front, back, hsplit, rfl, heven⟩ := exists_of_closes hi
    rcases List.append_eq_append_iff.mp hsplit with ⟨more, rfl, -⟩ | ⟨more, hfront, hmore⟩
    · simp
    cases more with
    | nil => simp [hfront]
    | cons c more =>
      obtain ⟨rfl, -⟩ := List.cons.inj hmore
      obtain ⟨front', back', rfl, rfl⟩ := exists_of_escaped_eq hfront
      rw [backslashes_concat, if_pos rfl, backslashes_escaped] at heven
      exact absurd (hquotes _ _ rfl) (Nat.even_add_one.mp heven)

end Backslashes

/-! ## Reading strings -/

/-- The same of characters with others in front. -/
def QuotableAfter (before cs : List Char) : Prop :=
  Even (backslashes (before ++ cs)) ∧
    ∀ front back, cs = front ++ '"' :: back → Even (backslashes (before ++ front))

section Strings

variable {before cs rest read text : List Char} {odd : Bool} {c : Char} {more : List Token}

theorem quotableAfter_nil : QuotableAfter before [] ↔ Even (backslashes before) := by
  simp [QuotableAfter]

theorem quotableAfter_cons : QuotableAfter before (c :: cs) ↔
    (c = '"' → Even (backslashes before)) ∧ QuotableAfter (before ++ [c]) cs := by
  simp only [QuotableAfter, List.append_assoc, List.singleton_append]
  constructor
  · rintro ⟨hend, hquotes⟩
    refine ⟨?_, hend, ?_⟩
    · rintro rfl
      simpa using hquotes [] cs rfl
    · rintro front back rfl
      exact hquotes (c :: front) back rfl
  · rintro ⟨hc, hend, hquotes⟩
    refine ⟨hend, fun front back h => ?_⟩
    rcases List.cons_eq_append_iff.mp h with ⟨rfl, h⟩ | ⟨front, rfl, rfl⟩
    · obtain ⟨rfl, -⟩ := List.cons.inj h
      simpa using hc rfl
    · exact hquotes front back rfl

def endsOdd (cs : List Char) : Bool := !decide (Even (backslashes cs))

theorem endsOdd_concat (cs : List Char) (c : Char) :
    endsOdd (cs ++ [c]) = (c == '\\' && !endsOdd cs) := by
  rw [endsOdd, backslashes_concat]
  by_cases hc : c = '\\'
  · have hflip : decide (Even (backslashes cs + 1)) = !decide (Even (backslashes cs)) :=
      (decide_eq_decide.mpr Nat.even_add_one).trans decide_not
    rw [if_pos hc, hflip, beq_iff_eq.mpr hc, Bool.true_and]
    rfl
  · rw [if_neg hc, beq_eq_false_iff_ne.mpr hc, Bool.false_and]
    rfl

theorem tokensFrom_quote (read rest : List Char) :
    tokensFrom (.quoted read false) ('"' :: rest) = .quoted read :: tokensFrom .between rest :=
  tokensFrom_cons _ _ _

theorem tokensFrom_escaped_quote (read rest : List Char) :
    tokensFrom (.quoted read false) ('\\' :: '"' :: rest) =
      tokensFrom (.quoted (read ++ ['"']) false) rest := by
  rw [tokensFrom_cons, tokensFrom_cons]
  simp [step]

theorem tokensFrom_other (hc : c ≠ '"') (before read rest : List Char) :
    tokensFrom (.quoted read (endsOdd before)) (c :: rest) =
      tokensFrom (.quoted (read ++ [c]) (endsOdd (before ++ [c]))) rest := by
  rw [tokensFrom_cons, endsOdd_concat]
  simp [step, hc]

theorem tokensFrom_of_quotable (h : QuotableAfter before cs) :
    tokensFrom (.quoted read (endsOdd before)) (escaped cs ++ '"' :: rest) =
      .quoted (read ++ cs) :: tokensFrom .between rest := by
  induction cs generalizing before read with
  | nil =>
    have heven : endsOdd before = false := by simpa [endsOdd] using quotableAfter_nil.mp h
    rw [heven, List.append_nil]
    exact tokensFrom_quote read rest
  | cons c cs ih =>
    obtain ⟨hquote, hcs⟩ := quotableAfter_cons.mp h
    have hread : tokensFrom (.quoted (read ++ [c]) (endsOdd (before ++ [c])))
        (escaped cs ++ '"' :: rest) = .quoted (read ++ c :: cs) :: tokensFrom .between rest := by
      rw [ih hcs, List.append_assoc, List.singleton_append]
    by_cases hc : c = '"'
    · subst hc
      have heven : endsOdd before = false := by simpa [endsOdd] using hquote rfl
      rw [endsOdd_concat] at hread
      rw [heven, escaped_quote_cons, List.cons_append, List.cons_append, tokensFrom_escaped_quote]
      exact hread
    · rw [escaped_cons hc, List.cons_append, tokensFrom_other hc]
      exact hread

theorem prefix_of_tokensFrom (h : tokensFrom (.quoted read odd) cs = .quoted text :: more) :
    (if odd then read.dropLast else read) <+: text := by
  induction cs generalizing read odd with
  | nil => simp [tokensFrom, skim, finish] at h
  | cons c cs ih =>
    rw [tokensFrom_cons] at h
    by_cases hc : c = '"'
    · subst hc
      cases odd with
      | true => exact (List.prefix_append _ _).trans (ih h)
      | false => exact Token.quoted.inj (List.cons.inj h).1 ▸ List.prefix_refl read
    · rw [step, if_neg hc] at h
      have hkept : read <+: if (c == '\\' && !odd) = true then (read ++ [c]).dropLast
          else read ++ [c] := by
        split <;> simp
      have hshort : (if odd then read.dropLast else read) <+: read := by
        split
        · exact List.dropLast_prefix read
        · exact List.prefix_refl read
      exact (hshort.trans hkept).trans (ih h)

theorem tokensFrom_of_not_quotable (hodd : endsOdd before = true → ∃ front, read = front ++ ['\\'])
    (h : ¬ QuotableAfter before cs) :
    tokensFrom (.quoted read (endsOdd before)) (escaped cs ++ '"' :: rest) ≠
      .quoted (read ++ cs) :: more := by
  induction cs generalizing before read with
  | nil =>
    -- the string runs on: the last backslash and the closing quote are read as a quote
    have hends : endsOdd before = true := by simpa [endsOdd] using mt quotableAfter_nil.mpr h
    obtain ⟨front, rfl⟩ := hodd hends
    rw [hends, List.append_nil]
    intro hread
    have hrest : tokensFrom (.quoted ((front ++ ['\\']).dropLast ++ ['"']) false) rest =
        .quoted (front ++ ['\\']) :: more := hread
    simpa using prefix_of_tokensFrom hrest
  | cons c cs ih =>
    rw [quotableAfter_cons, not_and_or, Classical.not_imp] at h
    have hread (hcs : ¬ QuotableAfter (before ++ [c]) cs) :
        tokensFrom (.quoted (read ++ [c]) (endsOdd (before ++ [c]))) (escaped cs ++ '"' :: rest) ≠
          .quoted (read ++ c :: cs) :: more := by
      rw [List.append_cons read c cs]
      refine ih (fun hends => ⟨read, ?_⟩) hcs
      rw [endsOdd_concat, Bool.and_eq_true] at hends
      rw [beq_iff_eq.mp hends.1]
    by_cases hc : c = '"'
    · subst hc
      rw [escaped_quote_cons, List.cons_append, List.cons_append]
      cases hends : endsOdd before with
      | true =>
        -- the string ends early: the two backslashes belong together
        rw [tokensFrom_cons]
        intro hread
        have hshort : read ++ ['\\'] = read ++ '"' :: cs :=
          Token.quoted.inj (List.cons.inj hread).1
        simp at hshort
      | false =>
        rw [tokensFrom_escaped_quote]
        rw [endsOdd_concat] at hread
        refine hread (h.resolve_left fun hquote => hquote.2 ?_)
        simpa [endsOdd] using hends
    · rw [escaped_cons hc, List.cons_append, tokensFrom_other hc]
      exact hread (h.resolve_left fun hquote => hc hquote.1)

end Strings

/-! ## Texts that are put together -/

/-- The characters are read as the tokens just if the texts in them are quotable. -/
def ReadsAs (texts : List String) (cs : List Char) (ts : List Token) : Prop :=
  ∀ rest more, tokensFrom .between (cs ++ rest) = ts ++ more ↔
    (∀ s ∈ texts, Quotable s.toList) ∧ tokensFrom .between rest = more

section Together

variable {texts texts' : List String} {cs ds : List Char} {ts us : List Token}

theorem readsAs_of_skim (h : skim .between cs = (.between, ts)) : ReadsAs [] cs ts := by
  intro rest more
  rw [tokensFrom_append, h, List.append_cancel_left_eq]
  simp

theorem readsAs_dotString (s : String) :
    ReadsAs [s] (dotString s).toList [.quoted s.toList] := by
  intro rest more
  have hopen : tokensFrom .between ((dotString s).toList ++ rest) =
      tokensFrom (.quoted [] (endsOdd [])) (escaped s.toList ++ '"' :: rest) := by
    rw [toList_dotString, List.cons_append, List.append_assoc]
    exact tokensFrom_cons _ _ _
  rw [hopen, List.forall_mem_singleton]
  by_cases hs : QuotableAfter [] s.toList
  · rw [tokensFrom_of_quotable hs]
    exact ⟨fun h => ⟨hs, (List.cons.inj h).2⟩, fun h => congrArg (_ :: ·) h.2⟩
  · exact iff_of_false (tokensFrom_of_not_quotable (fun h => absurd h (by decide)) hs)
      fun h => hs h.1

theorem ReadsAs.append (h : ReadsAs texts cs ts) (h' : ReadsAs texts' ds us) :
    ReadsAs (texts ++ texts') (cs ++ ds) (ts ++ us) := by
  intro rest more
  rw [List.append_assoc, List.append_assoc, h, h', List.forall_mem_append, and_assoc]

theorem readsAs_flatMap {α : Type} {texts : α → List String} {cs : α → List Char}
    {ts : α → List Token} (h : ∀ x, ReadsAs (texts x) (cs x) (ts x)) (xs : List α) :
    ReadsAs (xs.flatMap texts) (xs.flatMap cs) (xs.flatMap ts) := by
  induction xs with
  | nil => exact readsAs_of_skim rfl
  | cons x xs ih => exact (h x).append ih

theorem ReadsAs.tokens_eq_iff {text : String} (h : ReadsAs texts text.toList ts) :
    tokens text = ts ↔ ∀ s ∈ texts, Quotable s.toList := by
  have htext := h [] []
  rw [List.append_nil, List.append_nil] at htext
  exact htext.trans (and_iff_left rfl)

end Together

theorem toList_joinWith_concat (lines : List String) (last : String) :
    (Text.joinWith "\n" (lines ++ [last])).toList =
      lines.flatMap (fun line => line.toList ++ ['\n']) ++ last.toList := by
  induction lines with
  | nil => simp [Text.joinWith]
  | cons line lines ih =>
    rw [List.cons_append, Text.joinWith, String.intercalate_cons_of_ne_nil (by simp)]
    simpa [Text.joinWith] using ih

end Dot

open Dot

/-! ## Graphs -/

def Node.dotTokens (n : Node) : List Token :=
  [.quoted n.id.toList, .mark '[', .word "label".toList, .mark '=',
    .quoted (n.kind ++ "\\n" ++ n.name).toList, .mark ']', .mark ';']

def Edge.dotTokens (e : Edge) : List Token :=
  [.quoted e.source.toList, .arrow, .quoted e.target.toList, .mark '[', .word "label".toList,
      .mark '=', .quoted e.kind.toList] ++
    (if e.kind == containment then [.word "style".toList, .mark '=', .quoted "dashed".toList]
      else []) ++
    [.mark ']', .mark ';']

namespace Graph

/-- The edges that are drawn around a focus: those between nodes that are drawn. -/
def drawnEdges (g : Graph) (focus : String) : List Edge :=
  (g.focused focus).edges.filter fun e =>
    (g.focused focus).ids.contains e.source && (g.focused focus).ids.contains e.target

def dotTokens (g : Graph) (focus : String) : List Token :=
  [.word "digraph".toList, .word "CodeIntel".toList, .mark '\x7b', .word "rankdir".toList,
      .mark '=', .word "LR".toList, .mark ';'] ++
    (g.focused focus).nodes.flatMap Node.dotTokens ++ (g.drawnEdges focus).flatMap Edge.dotTokens ++
    [.mark '\x7d']

def dotTexts (g : Graph) (focus : String) : List String :=
  ((g.focused focus).nodes.flatMap fun n => [n.id, n.kind ++ "\\n" ++ n.name]) ++
    (g.drawnEdges focus).flatMap fun e => [e.source, e.target, e.kind]

end Graph

/-! ### Statements -/

theorem readsAs_indent : ReadsAs [] "  ".toList [] := readsAs_of_skim rfl

theorem readsAs_label : ReadsAs [] " [label=".toList [.mark '[', .word "label".toList, .mark '='] :=
  readsAs_of_skim rfl

theorem readsAs_close : ReadsAs [] "];\n".toList [.mark ']', .mark ';'] := readsAs_of_skim rfl

theorem Node.readsAs_dotLine (n : Node) :
    ReadsAs [n.id, n.kind ++ "\\n" ++ n.name] (n.dotLine.toList ++ ['\n']) n.dotTokens := by
  have hline : n.dotLine.toList ++ ['\n'] = "  ".toList ++ (dotString n.id).toList ++
      " [label=".toList ++ (dotString (n.kind ++ "\\n" ++ n.name)).toList ++ "];\n".toList := by
    simp [Node.dotLine]
  rw [hline]
  exact (((readsAs_indent.append (readsAs_dotString _)).append readsAs_label).append
    (readsAs_dotString _)).append readsAs_close

theorem Edge.readsAs_dotLine (e : Edge) :
    ReadsAs [e.source, e.target, e.kind] (e.dotLine.toList ++ ['\n']) e.dotTokens := by
  have harrow : ReadsAs [] " -> ".toList [.arrow] := readsAs_of_skim rfl
  have hstyle : ReadsAs [] (if e.kind == containment then " style=\"dashed\"" else "").toList
      (if e.kind == containment then [.word "style".toList, .mark '=', .quoted "dashed".toList]
        else []) := by
    split <;> exact readsAs_of_skim rfl
  have hline : e.dotLine.toList ++ ['\n'] = "  ".toList ++ (dotString e.source).toList ++
      " -> ".toList ++ (dotString e.target).toList ++ " [label=".toList ++
      (dotString e.kind).toList ++
      (if e.kind == containment then " style=\"dashed\"" else "").toList ++ "];\n".toList := by
    simp [Edge.dotLine]
  rw [hline]
  exact ((((((readsAs_indent.append (readsAs_dotString _)).append harrow).append
    (readsAs_dotString _)).append readsAs_label).append (readsAs_dotString _)).append
    hstyle).append readsAs_close

/-- The tokens that a graph is meant to have are read just if its texts are quotable. -/
theorem Graph.readsAs_dot (g : Graph) (focus : String) :
    ReadsAs (g.dotTexts focus) (g.dot focus).toList (g.dotTokens focus) := by
  have hopen : ReadsAs [] "digraph CodeIntel \x7b\n  rankdir=LR;\n".toList
      [.word "digraph".toList, .word "CodeIntel".toList, .mark '\x7b', .word "rankdir".toList,
        .mark '=', .word "LR".toList, .mark ';'] := readsAs_of_skim rfl
  have hclose : ReadsAs [] "\x7d".toList [.mark '\x7d'] := readsAs_of_skim rfl
  have hlines : (g.dot focus).toList = "digraph CodeIntel \x7b\n  rankdir=LR;\n".toList ++
      (g.focused focus).nodes.flatMap (fun n => n.dotLine.toList ++ ['\n']) ++
      (g.drawnEdges focus).flatMap (fun e => e.dotLine.toList ++ ['\n']) ++ "\x7d".toList := by
    rw [Graph.dot, toList_joinWith_concat]
    simp [List.flatMap_map, Graph.drawnEdges]
  rw [hlines]
  have hall := ((hopen.append (readsAs_flatMap Node.readsAs_dotLine (g.focused focus).nodes)).append
    (readsAs_flatMap Edge.readsAs_dotLine (g.drawnEdges focus))).append hclose
  rwa [List.append_nil] at hall

/-- **Tokens of a graph.** Around any focus a graph has the tokens that it is meant to have just if
the quotes and the end of each text between quotes come after an even number of backslashes. -/
theorem Graph.dot_tokens_iff (g : Graph) (focus : String) :
    (∀ s : String, IsLeast {i | Closes (dotString s).toList i} ((dotString s).toList.length - 1) ↔
      Quotable s.toList) ∧
    (tokens (g.dot focus) = g.dotTokens focus ↔ ∀ s ∈ g.dotTexts focus, Quotable s.toList) :=
  ⟨isLeast_closes_iff, (g.readsAs_dot focus).tokens_eq_iff⟩

/-- A graph with a node whose name ends in a backslash. -/
def trailingGraph : Graph where
  nodes := [{ id := "m", kind := "method", name := "a\\", path := "p" }]
  edges := []
  metadata := { generatedAt := "" }

/-- **A string that runs on** to the end of the graph, as the last quote of a name does not close
it. -/
theorem dot_label_runs_on :
    ¬ Closes (dotString "a\\").toList 3 ∧
    tokens (trailingGraph.dot "") =
      [.word "digraph".toList, .word "CodeIntel".toList, .mark '\x7b', .word "rankdir".toList,
        .mark '=', .word "LR".toList, .mark ';', .quoted "m".toList, .mark '[',
        .word "label".toList, .mark '=', .unclosed] := by
  constructor
  · rintro ⟨-, -, heven⟩
    exact absurd heven (by decide)
  · decide +kernel

end CodeAtlas
