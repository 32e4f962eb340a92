import CodeAtlas.Graph.Statistics
import CodeAtlas.Proofs.Graph.DepthFirst

/-!
# Cycles of dependency

Each edge that leads back to an open node closes a cycle, and none is looked at twice. Every other
edge leads to a node that is closed before its source.

* **`Graph.cycles_closed_by_distinct_pairs`**: the cycles of a graph, and what is left without them.
-/

namespace CodeAtlas

open Relation

def closingPair (cycle : List String) : String × String := (cycle.getLastD "", cycle.headD "")

/-- A cycle that lists each of its nodes once. -/
structure IsCycle (r : String → String → Prop) (cycle : List String) : Prop where
  ne_nil : cycle ≠ []
  nodup : cycle.Nodup
  chain : cycle.IsChain r
  closes : r (closingPair cycle).1 (closingPair cycle).2

def Acyclic (r : String → String → Prop) : Prop := ∀ a, ¬ TransGen r a a

theorem IsCycle.transGen {r : String → String → Prop} {cycle : List String} (h : IsCycle r cycle) :
    ∃ a, TransGen r a a := by
  obtain ⟨hne, -, hchain, hcloses⟩ := h
  cases cycle with
  | nil => exact absurd rfl hne
  | cons a l =>
    have hreach : ReflTransGen r a ((a :: l).getLast (List.cons_ne_nil a l)) :=
      List.relationReflTransGen_of_exists_isChain_cons l hchain rfl
    have hlast : (closingPair (a :: l)).1 = (a :: l).getLast (List.cons_ne_nil a l) := by
      rw [closingPair, List.getLastD_cons, List.getLast_eq_getLastD]
    rw [hlast] at hcloses
    exact ⟨a, TransGen.tail' hreach hcloses⟩

/-! ## The cycle of an open successor -/

theorem takeWhile_concat_prefix {x : String} {xs : List String} (h : x ∈ xs) :
    xs.takeWhile (· ≠ x) ++ [x] <+: xs := by
  induction xs with
  | nil => exact absurd h List.not_mem_nil
  | cons y ys ih =>
    by_cases hy : y = x
    · subst hy
      simp
    · rw [List.takeWhile_cons_of_pos (by simpa using hy), List.cons_append, List.prefix_cons_inj]
      exact ih ((List.mem_cons.mp h).resolve_left (Ne.symm hy))

theorem closingPair_loopFrom (node : String) (outer : List String) (successor : String) :
    closingPair (loopFrom (node :: outer) successor) = (node, successor) := by
  rw [loopFrom]
  by_cases h : node = successor
  · simp [closingPair, h]
  · rw [List.takeWhile_cons_of_pos (by simpa using h), List.cons_append, List.reverse_cons,
      closingPair, List.getLastD_concat]
    simp

theorem isCycle_loopFrom {next : String → List String} {node successor : String}
    {outer : List String} (hl : (node :: outer).IsChain fun b a => Follows next a b)
    (hn : (node :: outer).Nodup) (ho : successor ∈ node :: outer)
    (hf : Follows next node successor) :
    IsCycle (Follows next) (loopFrom (node :: outer) successor) := by
  have hp := takeWhile_concat_prefix ho
  refine ⟨?_, ?_, ?_, ?_⟩
  · simp [loopFrom]
  · exact List.nodup_reverse.mpr (hn.sublist hp.sublist)
  · exact List.isChain_reverse.mpr ( List.IsChain.prefix hl hp)
  · rw [closingPair_loopFrom]
    exact hf

namespace Traversal

abbrev ForCycles : Type := Traversal (List (List String))

def closings (s : ForCycles) : List (String × String) := s.notes.map closingPair

variable {next : String → List String} {ids roots roots' closed closed' : List String}
  {s s' : ForCycles} {node successor : String} {rest : List String}
  {path : List (String × List String)}

theorem cycles_move (h : Valid next ids s roots closed)
    (m : Move cycleVisitor next s roots closed s' roots' closed')
    (hc : ∀ c ∈ s.notes, IsCycle (Follows next) c) : ∀ c ∈ s'.notes, IsCycle (Follows next) c := by
  cases m with
  | root hp hf | skip hp hf | close hp | descend hp hf => exact hc
  | meet hp hf =>
    have hl := h.linked
    have hn := h.nodup_open
    rw [openNodes_eq hp] at hl hn
    simp only [cycleVisitor]
    split_ifs with ho
    · exact List.forall_mem_cons.mpr ⟨isCycle_loopFrom hl hn ho (h.follows hp), hc⟩
    · exact hc

/-! ## No pair closes two cycles -/

/-- The pairs that close a cycle differ, and none of them will be looked at again. -/
def ClosedOnce (s : ForCycles) : Prop :=
  s.closings.Nodup ∧
    ∀ p ∈ s.closings, p.1 ∉ s.fresh ∧ Looked s.path p.1 p.2

theorem ClosedOnce.enter (h : ClosedOnce s) (hf : node ∈ s.fresh) :
    ClosedOnce (s.enter cycleVisitor next node) := by
  refine ⟨h.1, fun p hp => ⟨fun hx => (h.2 p hp).1 (mem_without.mp hx).1, fun l hl => ?_⟩⟩
  rcases List.mem_cons.mp hl with e | hl
  · exact absurd ((Prod.mk.inj e).1 ▸ hf) (h.2 p hp).1
  · exact (h.2 p hp).2 l hl

theorem ClosedOnce.look (h : ClosedOnce s) (hp : s.path = (node, successor :: rest) :: path) :
    ClosedOnce ⟨s.fresh, (node, rest) :: path, s.notes⟩ :=
  ⟨h.1, fun p hm => ⟨(h.2 p hm).1, Looked.look (hp ▸ (h.2 p hm).2)⟩⟩

theorem ClosedOnce.loop (hnext : ∀ a, (next a).Nodup) (hv : Valid next ids s roots closed)
    (h : ClosedOnce s) (hp : s.path = (node, successor :: rest) :: path) :
    ClosedOnce ⟨s.fresh, (node, rest) :: path,
      loopFrom (node :: nodesOn path) successor :: s.notes⟩ := by
  have hnew : (node, successor) ∉ s.closings := fun hm =>
    (h.2 _ hm).2 (successor :: rest) (hp ▸ List.mem_cons_self) List.mem_cons_self
  have hrest : successor ∉ rest :=
    (List.nodup_cons.mp ((hnext node).sublist (hv.rests _ (hp ▸ List.mem_cons_self)).sublist)).1
  have hpath : node ∉ nodesOn path := by
    have hopen := hv.nodup_open
    rw [openNodes_eq hp] at hopen
    exact (List.nodup_cons.mp hopen).1
  unfold ClosedOnce closings
  rw [List.map_cons, closingPair_loopFrom]
  refine ⟨List.nodup_cons.mpr ⟨hnew, h.1⟩,
    List.forall_mem_cons.mpr ⟨⟨?_, fun l hl => ?_⟩, (h.look hp).2⟩⟩
  · exact hv.notMem_fresh (Or.inl (innermost_mem hp))
  · rcases List.mem_cons.mp hl with e | hl
    · rw [(Prod.mk.inj e).2]
      exact hrest
    · exact looked_of_notMem hpath l hl

theorem ClosedOnce.move (hnext : ∀ a, (next a).Nodup) (hv : Valid next ids s roots closed)
    (m : Move cycleVisitor next s roots closed s' roots' closed') (h : ClosedOnce s) :
    ClosedOnce s' := by
  cases m with
  | root hp hf => exact h.enter hf
  | skip hp hf => exact h
  | close hp =>
    exact ⟨h.1, fun p hm => ⟨(h.2 p hm).1, Looked.tail (hp ▸ (h.2 p hm).2)⟩⟩
  | descend hp hf => exact (h.look hp).enter hf
  | meet hp hf =>
    simp only [cycleVisitor]
    split_ifs with ho
    · exact h.loop hnext hv hp
    · exact h.look hp

/-! ## Without the closing pairs -/

/-- A successor of an open node is left to be looked at, or done with, or further in. -/
def Handled (next : String → List String) (done : String → String → Prop) :
    List String → List (String × List String) → Prop
  | _, [] => True
  | inner, (u, rest) :: outer =>
    (∀ v, Follows next u v → v ∈ rest ∨ done u v ∨ v ∈ inner) ∧ Handled next done (u :: inner) outer

/-- A successor of a closed node is closed before it, or a closing pair leads there. -/
def Falls (next : String → List String) (closings : List (String × String)) : List String → Prop
  | [] => True
  | u :: before =>
    (∀ v, Follows next u v → v ∈ before ∨ (u, v) ∈ closings) ∧ Falls next closings before

variable {done done' : String → String → Prop} {closings : List (String × String)}

theorem Handled.mono {inner inner' : List String} {l : List (String × List String)}
    (hd : ∀ u v, done u v → done' u v) (hi : ∀ v ∈ inner, v ∈ inner' ∨ ∀ u, done' u v)
    (h : Handled next done inner l) :
    Handled next done' inner' l := by
  induction l generalizing inner inner' with
  | nil => trivial
  | cons e outer ih =>
    obtain ⟨u, rest⟩ := e
    refine ⟨fun v hv => ?_, ih (fun v hv => ?_) h.2⟩
    · rcases h.1 v hv with hr | hdone | hin
      · exact Or.inl hr
      · exact Or.inr (Or.inl (hd u v hdone))
      · rcases hi v hin with hin' | hdone'
        · exact Or.inr (Or.inr hin')
        · exact Or.inr (Or.inl (hdone' u))
    · rcases List.mem_cons.mp hv with rfl | hv
      · exact Or.inl List.mem_cons_self
      · exact (hi v hv).imp_left (List.mem_cons_of_mem _)

theorem Falls.mono {closings closings' : List (String × String)} {l : List String}
    (hc : ∀ p ∈ closings, p ∈ closings') (h : Falls next closings l) : Falls next closings' l := by
  induction l with
  | nil => trivial
  | cons u before ih => exact ⟨fun v hv => (h.1 v hv).imp_right (hc _), ih h.2⟩

theorem Handled.look {inner : List String} (hd : ∀ u v, done u v → done' u v)
    (hs : done' node successor ∨ successor ∈ inner)
    (h : Handled next done [] ((node, successor :: rest) :: path)) :
    Handled next done' inner ((node, rest) :: path) := by
  refine ⟨fun v hv => ?_, h.2.mono hd fun v hv => Or.inl ?_⟩
  · rcases h.1 v hv with hr | hdone | hin
    · rcases List.mem_cons.mp hr with rfl | hr
      · exact Or.inr hs
      · exact Or.inl hr
    · exact Or.inr (Or.inl (hd node v hdone))
    · exact absurd hin List.not_mem_nil
  · rw [List.mem_singleton.mp hv]
    exact List.mem_cons_self

/-- The successor is closed, or the pair has closed a cycle. -/
def Done (s : ForCycles) (closed : List String) (u v : String) : Prop :=
  v ∈ closed ∨ (u, v) ∈ s.closings

/-- What has become of the successors of all nodes entered. -/
def Accounted (next : String → List String) (s : ForCycles) (closed : List String) : Prop :=
  Handled next (s.Done closed) [] s.path ∧ Falls next s.closings closed

theorem Accounted.loop (h : Accounted next s closed)
    (hp : s.path = (node, successor :: rest) :: path) :
    Accounted next ⟨s.fresh, (node, rest) :: path,
      loopFrom (node :: nodesOn path) successor :: s.notes⟩ closed := by
  have hsub : ∀ p ∈ s.closings,
      p ∈ (loopFrom (node :: nodesOn path) successor :: s.notes).map closingPair :=
    fun p hm => List.mem_cons_of_mem _ hm
  obtain ⟨hh, hfalls⟩ := h
  rw [hp] at hh
  refine ⟨hh.look (fun u v hd => hd.imp_right (hsub _)) (Or.inl (Or.inr ?_)), hfalls.mono hsub⟩
  rw [closings, List.map_cons, closingPair_loopFrom]
  exact List.mem_cons_self

theorem Accounted.close (h : Accounted next s closed) (hp : s.path = (node, []) :: path) :
    Accounted next ⟨s.fresh, path, s.notes⟩ (node :: closed) := by
  obtain ⟨hh, hfalls⟩ := h
  rw [hp] at hh
  refine ⟨hh.2.mono (fun u v hd => hd.imp_left (List.mem_cons_of_mem _)) fun v hv => ?_,
    fun v hv => ?_, hfalls⟩
  · rw [List.mem_singleton.mp hv]
    exact Or.inr fun u => Or.inl List.mem_cons_self
  · -- the innermost node has nothing left and nothing further in
    rcases hh.1 v hv with hr | hd | hi
    · exact absurd hr List.not_mem_nil
    · exact hd
    · exact absurd hi List.not_mem_nil

theorem Accounted.move (hids : ∀ a b, Follows next a b → b ∈ ids)
    (hv : Valid next ids s roots closed)
    (m : Move cycleVisitor next s roots closed s' roots' closed') (h : Accounted next s closed) :
    Accounted next s' closed' := by
  cases m with
  | root hp hf =>
    refine ⟨⟨fun v hv => Or.inl hv, h.1.mono (fun _ _ hd => hd) fun v hv => ?_⟩, h.2⟩
    exact absurd hv List.not_mem_nil
  | skip hp hf => exact h
  | close hp => exact h.close hp
  | descend hp hf =>
    obtain ⟨hh, hfalls⟩ := h
    rw [hp] at hh
    exact ⟨⟨fun v hv => Or.inl hv, hh.look (fun _ _ hd => hd) (Or.inr List.mem_cons_self)⟩, hfalls⟩
  | meet hp hf =>
    simp only [cycleVisitor]
    split_ifs with ho
    · exact h.loop hp
    · -- a successor that is neither fresh nor open is closed
      rw [← openNodes_eq hp] at ho
      have hclosed := ((hv.mem_iff.mp (hids _ _ (hv.follows hp))).resolve_left hf).resolve_left ho
      obtain ⟨hh, hfalls⟩ := h
      rw [hp] at hh
      exact ⟨hh.look (fun _ _ hd => hd) (Or.inl (Or.inl hclosed)), hfalls⟩

theorem Falls.of_append {after l : List String} (h : Falls next closings (after ++ l)) :
    Falls next closings l := by
  induction after with
  | nil => exact h
  | cons u after ih => exact ih h.2

theorem Falls.mem_of_transGen {after before : List String} {a b : String}
    (h : Falls next closings (after ++ a :: before))
    (hab : TransGen (fun a b => Follows next a b ∧ (a, b) ∉ closings) a b) : b ∈ before := by
  have h' : Falls next closings (a :: before) := h.of_append
  induction hab with
  | single hb => exact (h'.1 _ hb.1).resolve_right hb.2
  | tail _ hb ih =>
    obtain ⟨p, q, rfl⟩ := List.append_of_mem ih
    have hc : Falls next closings (_ :: q) := h'.2.of_append
    exact List.mem_append_right _ (List.mem_cons_of_mem _ ((hc.1 _ hb.1).resolve_right hb.2))

end Traversal

/-! ## The whole search -/

section Search

variable {next : String → List String} {ids : List String}

theorem isCycle_of_mem_depthFirst :
    ∀ c ∈ depthFirst cycleVisitor next ids [], IsCycle (Follows next) c := by
  obtain ⟨s, closed, hs, -, -, hc⟩ := depthFirst_keeps ids []
    (I := fun s _ => ∀ c ∈ s.notes, IsCycle (Follows next) c)
    (fun _ hc => absurd hc List.not_mem_nil) Traversal.cycles_move
  exact hs ▸ hc

theorem nodup_closings_depthFirst (hnext : ∀ a, (next a).Nodup) :
    ((depthFirst cycleVisitor next ids []).map closingPair).Nodup := by
  obtain ⟨s, closed, hs, -, -, hc⟩ := depthFirst_keeps ids []
    (I := fun s _ => Traversal.ClosedOnce s)
    ⟨List.nodup_nil, fun _ hp => absurd hp List.not_mem_nil⟩ (Traversal.ClosedOnce.move hnext)
  rw [← hs]
  exact hc.1

theorem acyclic_depthFirst (hids : ∀ a b, Follows next a b → a ∈ ids ∧ b ∈ ids) :
    Acyclic fun a b => Follows next a b ∧
      (a, b) ∉ (depthFirst cycleVisitor next ids []).map closingPair := by
  obtain ⟨s, closed, hs, hp, hv, hacc⟩ := depthFirst_keeps ids [] (I := Traversal.Accounted next)
    ⟨trivial, trivial⟩ (Traversal.Accounted.move fun a b h => (hids a b h).2)
  rw [← hs]
  intro a ha
  obtain ⟨b, hab, -⟩ := TransGen.head'_iff.mp ha
  have hmem : a ∈ closed := ((hv.finished hp).2 a).mpr (hids a b hab.1).1
  obtain ⟨p, q, hpq⟩ := List.append_of_mem hmem
  have hnodup := hv.nodup_closed
  have hfalls := hacc.2
  rw [hpq] at hfalls hnodup
  exact (List.nodup_cons.mp hnodup.of_append_right).1 (hfalls.mem_of_transGen ha)

end Search

namespace Graph

theorem closings_eq (g : Graph) : g.cycles.map closingPair =
    ((depthFirst cycleVisitor g.ahead.targets g.ids []).map closingPair).reverse := by
  rw [cycles, List.map_reverse]

/-- **Cycles of a graph.** Each list found is a cycle, no two are closed by the same pair, and
without the closing pairs no cycle is left. -/
theorem cycles_closed_by_distinct_pairs (g : Graph) :
    (∀ c ∈ g.cycles, IsCycle g.DependsOn c) ∧
    (g.cycles.map closingPair).Nodup ∧
    (Acyclic fun a b => g.DependsOn a b ∧ (a, b) ∉ g.cycles.map closingPair) ∧
    (g.cycles = [] ↔ Acyclic g.DependsOn) ∧
    ∀ (K : Type) [Arith K], (g.statistics : Statistics K).hasCycles = false ↔
      Acyclic g.DependsOn := by
  have hcycle : ∀ c ∈ g.cycles, IsCycle g.DependsOn c := by
    rw [← follows_ahead]
    exact fun c hc => isCycle_of_mem_depthFirst c (List.mem_reverse.mp hc)
  have hrest : Acyclic fun a b => g.DependsOn a b ∧ (a, b) ∉ g.cycles.map closingPair := by
    have h : Acyclic fun a b => Follows g.ahead.targets a b ∧
        (a, b) ∉ (depthFirst cycleVisitor g.ahead.targets g.ids []).map closingPair :=
      acyclic_depthFirst fun a b hab =>
        ⟨(mem_ahead.mp hab).source_mem, (mem_ahead.mp hab).target_mem⟩
    simpa only [closings_eq, List.mem_reverse, follows_ahead] using h
  have hempty : g.cycles = [] ↔ Acyclic g.DependsOn := by
    constructor
    · intro h
      simpa [h] using hrest
    · intro h
      refine List.eq_nil_iff_forall_not_mem.mpr fun c hc => ?_
      obtain ⟨a, ha⟩ := (hcycle c hc).transGen
      exact h a ha
  refine ⟨hcycle, ?_, hrest, hempty, fun K _ => ?_⟩
  · rw [closings_eq, List.nodup_reverse]
    exact nodup_closings_depthFirst g.nodup_ahead
  · rw [← hempty]
    simp [statistics]

end Graph

end CodeAtlas
