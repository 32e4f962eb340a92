import CodeAtlas.Sorting
import Mathlib.Algebra.Order.Group.Multiset
import Mathlib.Tactic.Abel

/-!
# Sorting rearranges

Whatever the comparison says, each step of a merge keeps the items as a multiset.

* **`ranked_perm`**: the items ranked.
-/

namespace CodeAtlas.Sorting

variable {α : Type}

/-! ## Merging -/

namespace Merge

def all (m : Merge α) : Multiset α := m.done + m.held + m.other

theorem coe_items (m : Merge α) : (m.items : Multiset α) = m.all := by
  simp only [items, all, ← Multiset.coe_add, Multiset.coe_reverse]
  abel

theorem all_takeHeld (m : Merge α) (count : Nat) : (m.takeHeld count).all = m.all := by
  have hsplit : (m.held : Multiset α) = m.held.take count + m.held.drop count := by
    rw [Multiset.coe_add, List.take_append_drop]
  simp only [takeHeld, all, hsplit, ← Multiset.coe_add, Multiset.coe_reverse]
  abel

theorem all_takeOther (m : Merge α) (count : Nat) : (m.takeOther count).all = m.all := by
  have hsplit : (m.other : Multiset α) = m.other.take count + m.other.drop count := by
    rw [Multiset.coe_add, List.take_append_drop]
  simp only [takeOther, all, hsplit, ← Multiset.coe_add, Multiset.coe_reverse]
  abel

variable (side : MergeSide α)

theorem all_oneByOne (enough count heldRow otherRow : Nat) (m : Merge α) :
    (oneByOne side enough count heldRow otherRow m).all = m.all := by
  induction count generalizing heldRow otherRow m with
  | zero => rfl
  | succ count ih =>
    rw [oneByOne]
    split
    next x held y other hheld hother =>
      by_cases hy : side.before y x = true
      · simp only [if_pos hy]
        split_ifs
        · exact all_takeOther m 1
        · rw [ih, all_takeOther]
      · simp only [if_neg hy]
        split_ifs
        · exact all_takeHeld m 1
        · rw [ih, all_takeHeld]
    next => rfl

theorem all_heldStretch (m : Merge α) : (heldStretch side m).1.all = m.all := by
  unfold heldStretch
  dsimp only
  split_ifs
  · exact all_takeHeld m _
  · rw [all_takeOther, all_takeHeld]

theorem all_otherStretch (m : Merge α) : (otherStretch side m).1.all = m.all := by
  unfold otherStretch
  dsimp only
  split_ifs
  · exact all_takeOther m _
  · rw [all_takeHeld, all_takeOther]

theorem all_bothStretches (m : Merge α) : (bothStretches side m).1.all = m.all := by
  unfold bothStretches
  dsimp only
  split_ifs
  · exact all_heldStretch side m
  · rw [all_otherStretch, all_heldStretch]
  · exact all_otherStretch side m
  · rw [all_heldStretch, all_otherStretch]

theorem all_byStretches (count enough : Nat) (m : Merge α) :
    (byStretches side count enough m).1.all = m.all := by
  induction count generalizing enough m with
  | zero => rfl
  | succ count ih =>
    unfold byStretches
    dsimp only
    split_ifs
    · exact all_bothStretches side m
    · rw [ih, all_bothStretches]
    · exact all_bothStretches side m

theorem all_goOn (count enough : Nat) (m : Merge α) :
    (goOn side count enough m).1.all = m.all := by
  induction count generalizing enough m with
  | zero => rfl
  | succ count ih =>
    unfold goOn
    dsimp only
    split_ifs
    · exact all_oneByOne side ..
    · rw [all_byStretches, all_oneByOne]
    · rw [ih, all_byStretches, all_oneByOne]

theorem coe_run (enough : Nat) (held other : List α) :
    ((run side enough held other).1 : Multiset α) = held + other := by
  have hall : (takeOther ⟨[], held, other⟩ 1).all = (held : Multiset α) + other := by
    rw [all_takeOther, all]
    exact congrArg (· + (other : Multiset α)) (zero_add (held : Multiset α))
  unfold run
  dsimp only
  rw [coe_items, ← hall]
  split_ifs
  · rfl
  · exact all_goOn side ..

end Merge

variable (below : α → α → Bool)

theorem coe_take_add_drop (count : Nat) (xs : List α) :
    (xs.take count : Multiset α) + xs.drop count = xs := by
  rw [Multiset.coe_add, List.take_append_drop]

theorem coe_merged (enough : Nat) (first second : List α) :
    ((if first.isEmpty || second.isEmpty then (first ++ second, enough)
      else if first.length ≤ second.length then Merge.run (fromFront below) enough first second
      else
        ((Merge.run (fromEnd below) enough second.reverse first.reverse).1.reverse,
          (Merge.run (fromEnd below) enough second.reverse first.reverse).2)).1 : Multiset α) =
      first + second := by
  split_ifs
  · exact (Multiset.coe_add first second).symm
  · exact Merge.coe_run _ enough first second
  · rw [Multiset.coe_reverse, Merge.coe_run, Multiset.coe_reverse, Multiset.coe_reverse, add_comm]

/-- **Two runs merged** are the items of both. -/
theorem coe_mergeRuns (enough : Nat) (a b : List α) :
    ((mergeRuns below enough a b).1 : Multiset α) = a + b := by
  unfold mergeRuns
  dsimp only
  rw [← Multiset.coe_add, ← Multiset.coe_add, coe_merged, ← add_assoc, coe_take_add_drop,
    add_assoc, coe_take_add_drop]

namespace RunStack

def all (runs : List (WaitingRun α)) : Multiset α := (runs.map fun r => (r.items : Multiset α)).sum

theorem all_nil : all ([] : List (WaitingRun α)) = 0 := rfl

theorem all_cons (r : WaitingRun α) (rest : List (WaitingRun α)) :
    all (r :: rest) = r.items + all rest := List.sum_cons

theorem all_settled (power enough : Nat) (last : WaitingRun α) (runs : List (WaitingRun α)) :
    all (settled below power enough last runs).runs = last.items + all runs := by
  induction runs generalizing enough last with
  | nil => rfl
  | cons r rest ih =>
    rw [settled]
    split_ifs
    · dsimp only
      rw [ih, coe_mergeRuns, all_cons]
      abel
    · rfl

theorem all_push (n : Nat) (s : RunStack α) (items : List α) :
    all (push below n s items).runs = items + all s.runs := by
  unfold push
  split
  next h => rw [h]; rfl
  next last rest h => rw [all_cons, all_settled, h, all_cons]

theorem all_foldl_push (n : Nat) (runs : List (List α)) (s : RunStack α) :
    all (runs.foldl (push below n) s).runs = all s.runs + runs.flatten := by
  induction runs generalizing s with
  | nil => exact (add_zero (all s.runs)).symm
  | cons run runs ih =>
    rw [List.foldl_cons, ih, all_push, List.flatten_cons, ← Multiset.coe_add]
    abel

theorem coe_flatMap_items (runs : List (WaitingRun α)) :
    (runs.reverse.flatMap (·.items) : Multiset α) = all runs := by
  induction runs with
  | nil => rfl
  | cons r rest ih =>
    rw [List.reverse_cons, List.flatMap_append, ← Multiset.coe_add, ih, all_cons,
      List.flatMap_singleton, add_comm]

theorem coe_merged (count : Nat) (s : RunStack α) :
    (merged below count s : Multiset α) = all s.runs := by
  fun_induction merged below count s with
  | case1 count last r before rest enough h items enough' hmerge ih =>
    have hitems : (items : Multiset α) = before.items + r.items := by
      rw [← coe_mergeRuns below enough, hmerge]
    rw [ih]
    simp only [all_cons, hitems]
    abel
  | case2 count last r before rest enough h items enough' hmerge ih =>
    have hitems : (items : Multiset α) = r.items + last.items := by
      rw [← coe_mergeRuns below enough, hmerge]
    rw [ih]
    simp only [all_cons, hitems]
    abel
  | case3 count last r enough =>
    rw [coe_mergeRuns, all_cons, all_cons, all_nil]
    abel
  | case4 count runs enough => exact coe_flatMap_items runs

end RunStack

/-! ## Runs -/

theorem splitRun_append (goesOn : α → α → Bool) (last : α) (xs : List α) :
    (splitRun goesOn last xs).1 ++ (splitRun goesOn last xs).2 = xs := by
  induction xs generalizing last with
  | nil => rfl
  | cons x rest ih =>
    rw [splitRun]
    split_ifs
    · exact congrArg (x :: ·) (ih x)
    · rfl

theorem coe_openingRun (xs : List α) :
    ((openingRun below xs).1 : Multiset α) + (openingRun below xs).2 = xs := by
  match xs with
  | [] => rfl
  | [x] => rfl
  | x :: y :: rest =>
    rw [openingRun]
    split_ifs
    · dsimp only
      rw [Multiset.coe_reverse, Multiset.coe_add, List.cons_append, List.cons_append,
        splitRun_append]
    · dsimp only
      rw [Multiset.coe_add, List.cons_append, List.cons_append, splitRun_append]

theorem length_openingRun_pos {xs : List α} (h : xs ≠ []) :
    0 < (openingRun below xs).1.length := by
  match xs with
  | [] => exact absurd rfl h
  | [x] => exact Nat.one_pos
  | x :: y :: rest =>
    rw [openingRun]
    split_ifs <;> simp

theorem coe_putAmong (items : Array α) (item : α) :
    ((putAmong below items item).toList : Multiset α) = items.toList + {item} := by
  have hback : ∀ place, (items.extract place items.size).toList = items.toList.drop place := by
    intro place
    rw [Array.toList_extract, List.extract_eq_take_drop, List.take_of_length_le]
    rw [List.length_drop, Array.length_toList]
  unfold putAmong
  dsimp only
  rw [Array.toList_append, Array.toList_append, hback, Array.toList_extract,
    List.extract_eq_take_drop, List.drop_zero, Nat.sub_zero, ← Multiset.coe_add,
    ← Multiset.coe_add, add_right_comm, coe_take_add_drop]
  rfl

theorem coe_foldl_putAmong (xs : List α) (items : Array α) :
    ((xs.foldl (putAmong below) items).toList : Multiset α) = items.toList + xs := by
  induction xs generalizing items with
  | nil => exact (add_zero (items.toList : Multiset α)).symm
  | cons x xs ih =>
    rw [List.foldl_cons, ih, coe_putAmong, ← Multiset.cons_coe, ← Multiset.singleton_add, add_assoc]

theorem coe_filledRun (least : Nat) (xs : List α) :
    ((filledRun below least xs).1 : Multiset α) + (filledRun below least xs).2 = xs := by
  unfold filledRun
  dsimp only
  rw [coe_foldl_putAmong, add_assoc, coe_take_add_drop, coe_openingRun]

theorem length_filledRun_lt (least : Nat) {xs : List α} (h : xs ≠ []) :
    (filledRun below least xs).2.length < xs.length := by
  have hopen := congrArg Multiset.card (coe_openingRun below xs)
  have hpos := length_openingRun_pos below h
  simp only [Multiset.card_add, Multiset.coe_card] at hopen
  simp only [filledRun, List.length_drop]
  omega

theorem coe_runsUpTo (least : Nat) {count : Nat} {xs : List α} (h : xs.length ≤ count) :
    ((runsUpTo below least count xs).flatten : Multiset α) = xs := by
  induction count generalizing xs with
  | zero =>
    obtain rfl := List.length_eq_zero_iff.mp (Nat.le_zero.mp h)
    rfl
  | succ count ih =>
    cases xs with
    | nil => rfl
    | cons x xs =>
      have hlt := length_filledRun_lt below least (List.cons_ne_nil x xs)
      rw [runsUpTo, List.flatten_cons, ← Multiset.coe_add, ih (by omega), coe_filledRun]
      exact List.cons_ne_nil x xs

/-! ## The whole list -/

theorem coe_arranged (xs : List α) : (arranged below xs : Multiset α) = xs := by
  unfold arranged
  dsimp only
  rw [RunStack.coe_merged, RunStack.all_foldl_push, runsOf, coe_runsUpTo below _ le_rfl]
  exact zero_add (xs : Multiset α)

/-- **The items ranked** are the items, whatever the comparison. -/
theorem ranked_perm (xs : List α) : (ranked below xs).Perm xs := by
  rw [← Multiset.coe_eq_coe, ranked, Multiset.coe_reverse, coe_arranged, Multiset.coe_reverse]

end CodeAtlas.Sorting
