import CodeAtlas.Text.Pattern
import Mathlib.Data.List.Basic

/-!
# What a pattern matches

A pattern matches a piece of a line between what stands before it and what follows.

* **`occursIn_iff`**: a pattern occurs in a line just if it matches a piece of it.
-/

namespace CodeAtlas.Text

/-! ## The character before a place -/

/-- The last of the characters, or the one before them if there are none. -/
def lastOf (previous : Option Char) (cs : List Char) : Option Char := cs.getLast?.or previous

@[simp]
theorem lastOf_cons (previous : Option Char) (c : Char) (cs : List Char) :
    lastOf previous (c :: cs) = lastOf (some c) cs := by
  rw [lastOf, lastOf, List.getLast?_cons]
  cases cs.getLast? <;> rfl

theorem lastOf_append (previous : Option Char) (cs ds : List Char) :
    lastOf previous (cs ++ ds) = lastOf (lastOf previous cs) ds := by
  induction cs generalizing previous with
  | nil => rfl
  | cons c cs ih => rw [List.cons_append, lastOf_cons, lastOf_cons, ih]

theorem lastOf_none (cs : List Char) : lastOf none cs = cs.getLast? := Option.or_none

/-! ## Pieces -/

/-- The pattern matches a piece, given the character before it and what follows. -/
inductive Fits : Pattern → Option Char → List Char → List Char → Prop
  | nil {previous : Option Char} {following : List Char} : Fits [] previous [] following
  | edge {items : Pattern} {previous : Option Char} {piece following : List Char}
      (h : atEdge previous (piece ++ following).head? = true)
      (hrest : Fits items previous piece following) :
      Fits (.edge :: items) previous piece following
  | one {items : Pattern} {previous : Option Char} {p : Char → Bool} {c : Char}
      {piece following : List Char} (h : p c = true)
      (hrest : Fits items (some c) piece following) :
      Fits (.one p :: items) previous (c :: piece) following
  | many {items : Pattern} {previous : Option Char} {p : Char → Bool}
      {run piece following : List Char} (h : ∀ c ∈ run, p c = true)
      (hrest : Fits items (lastOf previous run) piece following) :
      Fits (.many p :: items) previous (run ++ piece) following

section Pieces

variable {previous : Option Char} {piece following : List Char} {p : Char → Bool}

theorem fits_nil : Fits [] previous piece following ↔ piece = [] := by
  constructor
  · rintro ⟨⟩
    rfl
  · rintro rfl
    exact .nil

theorem fits_append {items more : Pattern} :
    Fits (items ++ more) previous piece following ↔
      ∃ first second, piece = first ++ second ∧ Fits items previous first (second ++ following) ∧
        Fits more (lastOf previous first) second following := by
  constructor
  · intro h
    induction items generalizing previous piece with
    | nil => exact ⟨[], piece, rfl, .nil, h⟩
    | cons item items ih =>
      cases h with
      | edge hedge hrest =>
        obtain ⟨first, second, rfl, hfirst, hsecond⟩ := ih hrest
        rw [List.append_assoc] at hedge
        exact ⟨first, second, rfl, .edge hedge hfirst, hsecond⟩
      | one hc hrest =>
        obtain ⟨first, second, rfl, hfirst, hsecond⟩ := ih hrest
        exact ⟨_ :: first, second, rfl, .one hc hfirst, by rwa [lastOf_cons]⟩
      | many hrun hrest =>
        obtain ⟨first, second, rfl, hfirst, hsecond⟩ := ih hrest
        refine ⟨_ ++ first, second, (List.append_assoc ..).symm, .many hrun hfirst, ?_⟩
        rwa [lastOf_append]
  · rintro ⟨first, second, rfl, hfirst, hsecond⟩
    generalize hend : second ++ following = tail at hfirst
    induction hfirst with
    | nil => exact hsecond
    | edge hedge _ ih =>
      subst hend
      rw [← List.append_assoc] at hedge
      exact .edge hedge (ih hsecond rfl)
    | one hc _ ih =>
      rw [lastOf_cons] at hsecond
      exact .one hc (ih hsecond hend)
    | many hrun _ ih =>
      rw [lastOf_append] at hsecond
      rw [List.append_assoc]
      exact .many hrun (ih hsecond hend)

theorem fits_edge : Fits [.edge] previous piece following ↔
    piece = [] ∧ atEdge previous following.head? = true := by
  constructor
  · intro h
    cases h with
    | edge hedge hrest =>
      obtain rfl := fits_nil.mp hrest
      exact ⟨rfl, hedge⟩
  · rintro ⟨rfl, hedge⟩
    exact .edge hedge .nil

theorem fits_many : Fits [.many p] previous piece following ↔ ∀ c ∈ piece, p c = true := by
  constructor
  · intro h
    cases h with
    | many hrun hrest =>
      obtain rfl := fits_nil.mp hrest
      rwa [List.append_nil]
  · intro h
    rw [← List.append_nil piece]
    exact .many h .nil

theorem fits_some : Fits [.one p, .many p] previous piece following ↔
    piece ≠ [] ∧ ∀ c ∈ piece, p c = true := by
  constructor
  · intro h
    cases h with
    | one hc hrest =>
      exact ⟨List.cons_ne_nil _ _, List.forall_mem_cons.mpr ⟨hc, fits_many.mp hrest⟩⟩
  · rintro ⟨hne, h⟩
    obtain ⟨c, cs, rfl⟩ := List.exists_cons_of_ne_nil hne
    obtain ⟨hc, hcs⟩ := List.forall_mem_cons.mp h
    exact .one hc (fits_many.mpr hcs)

theorem fits_literal {s : String} :
    Fits (Pattern.literal s) previous piece following ↔ piece = s.toList := by
  unfold Pattern.literal
  generalize s.toList = cs
  induction cs generalizing previous piece with
  | nil => exact fits_nil
  | cons c cs ih =>
    constructor
    · intro h
      cases h with
      | one hc hrest => rw [beq_iff_eq.mp hc, ih.mp hrest]
    · rintro rfl
      exact .one (beq_self_eq_true c) (ih.mpr rfl)

end Pieces

/-! ## The matcher -/

theorem manyThen_iff {p : Char → Bool} {rest : Matcher} {previous : Option Char} {cs : List Char} :
    manyThen p rest previous cs = true ↔ ∃ run tail, cs = run ++ tail ∧ (∀ c ∈ run, p c = true) ∧
      rest (lastOf previous run) tail = true := by
  induction cs generalizing previous with
  | nil =>
    rw [manyThen]
    constructor
    · intro h
      exact ⟨[], [], rfl, fun _ hc => absurd hc List.not_mem_nil, h⟩
    · rintro ⟨run, tail, hsplit, -, h⟩
      obtain ⟨rfl, rfl⟩ := List.append_eq_nil_iff.mp hsplit.symm
      exact h
  | cons c cs ih =>
    rw [manyThen, Bool.or_eq_true, Bool.and_eq_true, ih]
    constructor
    · rintro (h | ⟨hc, run, tail, rfl, hrun, h⟩)
      · exact ⟨[], c :: cs, rfl, fun _ hc => absurd hc List.not_mem_nil, h⟩
      · refine ⟨c :: run, tail, rfl, List.forall_mem_cons.mpr ⟨hc, hrun⟩, ?_⟩
        rwa [lastOf_cons]
    · rintro ⟨run, tail, hsplit, hrun, h⟩
      cases run with
      | nil =>
        obtain rfl : c :: cs = tail := hsplit
        exact Or.inl h
      | cons d run =>
        obtain ⟨rfl, rfl⟩ := List.cons.inj hsplit
        obtain ⟨hc, hrest⟩ := List.forall_mem_cons.mp hrun
        rw [lastOf_cons] at h
        exact Or.inr ⟨hc, run, tail, rfl, hrest, h⟩

namespace Pattern

variable {pattern : Pattern} {previous : Option Char} {cs : List Char}

/-- **At a place** a pattern matches just if it matches a piece that begins there. -/
theorem matchesAt_iff : pattern.matchesAt previous cs = true ↔
    ∃ piece following, cs = piece ++ following ∧ Fits pattern previous piece following := by
  induction pattern generalizing previous cs with
  | nil => exact iff_of_true rfl ⟨[], cs, rfl, .nil⟩
  | cons item items ih =>
    change item.before (matchesAt items) previous cs = true ↔ _
    cases item with
    | edge =>
      change (atEdge previous cs.head? && matchesAt items previous cs) = true ↔ _
      rw [Bool.and_eq_true, ih]
      constructor
      · rintro ⟨hedge, piece, following, rfl, hfits⟩
        exact ⟨piece, following, rfl, .edge hedge hfits⟩
      · rintro ⟨piece, following, rfl, hfits⟩
        cases hfits with
        | edge hedge hrest => exact ⟨hedge, piece, following, rfl, hrest⟩
    | one p =>
      cases cs with
      | nil =>
        refine iff_of_false Bool.false_ne_true ?_
        rintro ⟨piece, following, hsplit, hfits⟩
        cases hfits
        cases hsplit
      | cons c cs =>
        change (p c && matchesAt items (some c) cs) = true ↔ _
        rw [Bool.and_eq_true, ih]
        constructor
        · rintro ⟨hc, piece, following, rfl, hfits⟩
          exact ⟨c :: piece, following, rfl, .one hc hfits⟩
        · rintro ⟨piece, following, hsplit, hfits⟩
          cases hfits with
          | one hc hrest =>
            obtain ⟨rfl, rfl⟩ := List.cons.inj hsplit
            exact ⟨hc, _, following, rfl, hrest⟩
    | many p =>
      change manyThen p (matchesAt items) previous cs = true ↔ _
      rw [manyThen_iff]
      constructor
      · rintro ⟨run, tail, rfl, hrun, h⟩
        obtain ⟨piece, following, rfl, hfits⟩ := ih.mp h
        exact ⟨run ++ piece, following, (List.append_assoc ..).symm, .many hrun hfits⟩
      · rintro ⟨piece, following, rfl, hfits⟩
        cases hfits with
        | many hrun hrest =>
          exact ⟨_, _, List.append_assoc .., hrun, ih.mpr ⟨_, following, rfl, hrest⟩⟩

theorem occursFrom_iff : pattern.occursFrom previous cs = true ↔
    ∃ before piece following, cs = before ++ (piece ++ following) ∧
      Fits pattern (lastOf previous before) piece following := by
  induction cs generalizing previous with
  | nil =>
    rw [occursFrom, matchesAt_iff]
    constructor
    · rintro ⟨piece, following, hsplit, hfits⟩
      exact ⟨[], piece, following, hsplit, hfits⟩
    · rintro ⟨before, piece, following, hsplit, hfits⟩
      obtain ⟨rfl, hrest⟩ := List.append_eq_nil_iff.mp hsplit.symm
      exact ⟨piece, following, hrest.symm, hfits⟩
  | cons c cs ih =>
    rw [occursFrom, Bool.or_eq_true, matchesAt_iff, ih]
    constructor
    · rintro (⟨piece, following, hsplit, hfits⟩ | ⟨before, piece, following, rfl, hfits⟩)
      · exact ⟨[], piece, following, hsplit, hfits⟩
      · exact ⟨c :: before, piece, following, rfl, by rwa [lastOf_cons]⟩
    · rintro ⟨before, piece, following, hsplit, hfits⟩
      cases before with
      | nil => exact Or.inl ⟨piece, following, hsplit, hfits⟩
      | cons d before =>
        obtain ⟨rfl, rfl⟩ := List.cons.inj hsplit
        rw [lastOf_cons] at hfits
        exact Or.inr ⟨before, piece, following, rfl, hfits⟩

/-- **A pattern occurs in a line** just if it matches a piece of it. -/
theorem occursIn_iff {line : String} : pattern.occursIn line = true ↔
    ∃ before piece following, line.toList = before ++ (piece ++ following) ∧
      Fits pattern before.getLast? piece following := by
  simp only [occursIn, occursFrom_iff, lastOf_none]

end Pattern

end CodeAtlas.Text
