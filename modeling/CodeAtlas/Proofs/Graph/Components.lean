import CodeAtlas.Proofs.Graph.Binding
import Mathlib.Order.Fin.Basic

/-!
# Components are the classes of tied nodes

When a node is closed that reaches back to itself only, those that wait since its entry are the
nodes tied to it: they reach it, and every node tied to it waits since then.

* **`Graph.components_are_tied_classes`**: the components of a graph.
-/

namespace CodeAtlas

open Relation

/-- Each of the two nodes reaches the other. -/
def Tied (r : String → String → Prop) (a b : String) : Prop :=
  ReflTransGen r a b ∧ ReflTransGen r b a

theorem Tied.symm {r : String → String → Prop} {a b : String} (h : Tied r a b) : Tied r b a :=
  ⟨h.2, h.1⟩

theorem Tied.trans {r : String → String → Prop} {a b c : String} (h : Tied r a b)
    (h' : Tied r b c) : Tied r a c :=
  ⟨h.1.trans h'.1, h'.2.trans h.2⟩

namespace Binding

variable {b : Binding} {node x : String} {outer : List String}

theorem waiting_handOver : (b.handOver node outer).waiting = b.waiting := by cases outer <;> rfl

theorem found_handOver : (b.handOver node outer).found = b.found := by cases outer <;> rfl

theorem waiting_release_subset : (b.release node).waiting ⊆ b.waiting :=
  ((List.drop_sublist 1 _).trans (List.dropWhile_sublist _)).subset

theorem close_eq : b.close node outer =
    if (b.handOver node outer).low node = (b.handOver node outer).entry node then
      (b.handOver node outer).release node
    else b.handOver node outer := rfl

theorem waiting_close_subset : (b.close node outer).waiting ⊆ b.waiting := by
  have h : (b.handOver node outer).waiting = b.waiting := waiting_handOver
  rw [close_eq, ← h]
  split_ifs
  · exact waiting_release_subset
  · exact List.Subset.refl _

theorem waiting_meet {successor : String} : (b.meet node successor).waiting = b.waiting := by
  unfold meet
  split_ifs <;> rfl

theorem found_meet {successor : String} : (b.meet node successor).found = b.found := by
  unfold meet
  split_ifs <;> rfl

end Binding

namespace Traversal

variable {next : String → List String} {ids roots roots' closed closed' : List String}
  {s s' : ForComponents} {node successor x y : String} {rest : List String}
  {path : List (String × List String)}

/-! ## Each move -/

theorem Entered.enter (hf : node ∈ s.fresh)
    (h : ∀ x ∈ s.notes.waiting, ∀ y, y ≠ node → Follows next x y → Looked s.path x y →
      y ∉ s.fresh) :
    Entered next (s.enter bindingVisitor next node) := by
  intro x hx y hxy hlook hm
  obtain ⟨hm, hne⟩ := mem_without.mp hm
  rw [waiting_enter, List.mem_cons] at hx
  rcases hx with rfl | hx
  · exact hlook (next x) List.mem_cons_self hxy
  · exact h x hx y hne hxy hlook.tail hm

theorem Entered.move (m : Move bindingVisitor next s roots closed s' roots' closed')
    (h : Entered next s) : Entered next s' := by
  cases m with
  | root hp hf => exact Entered.enter hf fun x hx y _ => h x hx y
  | skip hp hf => exact h
  | close hp =>
    intro x hx y hxy hlook
    exact h x (Binding.waiting_close_subset hx) y hxy (hp ▸ hlook.of_tail)
  | descend hp hf =>
    refine Entered.enter hf fun x hx y hne hxy hlook => h x hx y hxy ?_
    exact hp ▸ hlook.of_look fun e => hne e.2
  | meet hp hf =>
    intro x hx y hxy hlook hm
    exact h x (Binding.waiting_meet ▸ hx) y hxy
      (hp ▸ hlook.of_look fun e => hf (by rw [← e.2]; exact hm)) hm

theorem Bound.reaches_successor (h : Bound next ids s)
    (hp : s.path = (node, successor :: rest) :: path) (hs : Follows next node successor) :
    ∀ p ∈ s.openNodes, ReflTransGen (Follows next) p successor := by
  intro p hpo
  have hle : s.notes.entry p ≤ s.notes.entry node := by
    rcases (mem_openNodes hp).mp hpo with rfl | hpo
    · exact le_rfl
    · exact (h.entry_lt hp hpo).le
  exact (h.inward p hpo node (h.mem_waiting hp) hle).tail hs

theorem Bound.meet (h : Bound next ids s) (hp : s.path = (node, successor :: rest) :: path)
    (hs : Follows next node successor) :
    Bound next ids ⟨s.fresh, (node, rest) :: path, s.notes.meet node successor⟩ := by
  unfold Binding.meet
  split_ifs with hw
  · refine (h.reachBack hw (.single hs)).look hp fun _ => ?_
    rw [Binding.low_reachBack, if_pos rfl]
    exact min_le_right _ _
  · exact h.look hp fun hm => absurd hm hw

theorem Bound.close (hids : ∀ a b, Follows next a b → b ∈ ids) (h : Bound next ids s)
    (he : Entered next s) (hp : s.path = (node, []) :: path) :
    Bound next ids ⟨s.fresh, path, s.notes.close node (nodesOn path)⟩ := by
  have hb := h.handOver hp
  have hn : node ∉ nodesOn path := fun hm => lt_irrefl _ (h.entry_lt hp hm)
  rw [Binding.close_eq]
  split_ifs with hlow
  · refine hb.release hids ?_ hp hlow
    intro x hx
    exact he x (Binding.waiting_handOver ▸ hx)
  · refine hb.leave hp hlow fun parent hparent => ?_
    rw [Binding.low_handOver hn]
    exact Binding.low_handOver_le hparent

theorem Bound.move (hids : ∀ a b, Follows next a b → b ∈ ids)
    (hv : Valid next ids s roots closed)
    (m : Move bindingVisitor next s roots closed s' roots' closed')
    (he : Entered next s) (h : Bound next ids s) : Bound next ids s' := by
  cases m with
  | root hp hf =>
    refine h.enter (hv.mem_iff.mpr (Or.inl hf)) hf fun p hpo => ?_
    rw [openNodes, hp] at hpo
    cases hpo
  | skip hp hf => exact h
  | close hp => exact h.close hids he hp
  | descend hp hf =>
    have hl := h.look hp fun hm => absurd hf (h.entered _ hm).2
    refine hl.enter (hv.mem_iff.mpr (Or.inl hf)) hf ?_
    have ho := h.reaches_successor hp (hv.follows hp)
    rwa [openNodes_eq hp] at ho
  | meet hp hf => exact h.meet hp (hv.follows hp)

/-! ## Released components -/

/-- **What waits since a node** that is released is what is tied to the node. -/
theorem Bound.mem_since_iff (h : Bound next ids s) (hp : s.path = (node, rest) :: path)
    (h' : Bound next ids ⟨s.fresh, path, s.notes.release node⟩) :
    x ∈ s.notes.since node ↔ Tied (Follows next) node x := by
  have hn := h.mem_waiting hp
  have hself : node ∈ s.notes.since node := (h.mem_since hp).mpr ⟨hn, le_rfl⟩
  constructor
  · intro hx
    obtain ⟨hw, hle⟩ := (h.mem_since hp).mp hx
    refine ⟨h.inward node (innermost_mem hp) x hw hle, ?_⟩
    obtain ⟨p, hpo, -, hxp⟩ := h.outward x hw
    have hsettled := h'.settled_of_reaches ((h.settled_release hp).mpr (Or.inr hx)) hxp
    rcases (mem_openNodes hp).mp hpo with rfl | hpo
    · exact hxp
    · -- an open node around the released one is not settled
      exact absurd (h'.opened.subset hpo) hsettled.2.2
  · rintro ⟨hnx, hxn⟩
    have hsettled := h'.settled_of_reaches ((h.settled_release hp).mpr (Or.inr hself)) hnx
    rcases (h.settled_release hp).mp hsettled with hx | hx
    · exact absurd hn (h.settled_of_reaches hx hxn).2.2
    · exact hx

/-- The components found are classes of settled nodes, each before those that reach it, and none is
missing. -/
structure Classes (next : String → List String) (ids : List String) (s : ForComponents) :
    Prop where
  isClass : ∀ m ∈ s.notes.found, m.Nodup ∧ 2 ≤ m.length ∧
    ∃ a, ∀ x, x ∈ m ↔ Tied (Follows next) a x
  settled : ∀ m ∈ s.notes.found, ∀ x ∈ m, Settled ids s x
  complete : ∀ x y, Settled ids s x → x ≠ y → Tied (Follows next) x y → ∃ m ∈ s.notes.found, x ∈ m
  order : s.notes.found.Pairwise fun m m' =>
    ∀ x ∈ m', ∀ y ∈ m, ¬ ReflTransGen (Follows next) x y

theorem Classes.congr (h : Classes next ids s) (hf : s'.notes.found = s.notes.found)
    (hs : ∀ x, Settled ids s' x ↔ Settled ids s x) : Classes next ids s' := by
  obtain ⟨hclass, hsettled, hcomplete, horder⟩ := h
  rw [← hf] at hclass hsettled hcomplete horder
  exact ⟨hclass, fun m hm x hx => (hs x).mpr (hsettled m hm x hx),
    fun x y hx => hcomplete x y ((hs x).mp hx), horder⟩

theorem Classes.release (hb : Bound next ids s) (hp : s.path = (node, rest) :: path)
    (hb' : Bound next ids ⟨s.fresh, path, s.notes.release node⟩) (h : Classes next ids s) :
    Classes next ids ⟨s.fresh, path, s.notes.release node⟩ := by
  have htied : ∀ x, x ∈ s.notes.since node ↔ Tied (Follows next) node x :=
    fun x => hb.mem_since_iff hp hb'
  have hold : ∀ m ∈ s.notes.found, ∀ x ∈ m,
      Settled ids ⟨s.fresh, path, s.notes.release node⟩ x :=
    fun m hm x hx => (hb.settled_release hp).mpr (Or.inl (h.settled m hm x hx))
  have hnodup : (s.notes.since node).Nodup := by
    rw [hb.ordered.since_eq (hb.mem_waiting hp)]
    exact hb.ordered.nodup.sublist List.filter_sublist
  by_cases hlen : 2 ≤ (s.notes.since node).length
  · have hfound : (s.notes.release node).found = s.notes.since node :: s.notes.found := if_pos hlen
    refine ⟨?_, ?_, ?_, ?_⟩ <;> rw [hfound]
    · exact List.forall_mem_cons.mpr ⟨⟨hnodup, hlen, node, htied⟩, h.isClass⟩
    · refine List.forall_mem_cons.mpr ⟨fun x hx => ?_, hold⟩
      exact (hb.settled_release hp).mpr (Or.inr hx)
    · intro x y hx hne hxy
      rcases (hb.settled_release hp).mp hx with hx | hx
      · obtain ⟨m, hm, hxm⟩ := h.complete x y hx hne hxy
        exact ⟨m, List.mem_cons_of_mem _ hm, hxm⟩
      · exact ⟨_, List.mem_cons_self, hx⟩
    · -- a settled node reaches no node that waits
      refine List.pairwise_cons.mpr ⟨fun m hm x hx y hy hxy => ?_, h.order⟩
      exact (hb.settled_of_reaches (h.settled m hm x hx) hxy).2.2 ((hb.mem_since hp).mp hy).1
  · have hfound : (s.notes.release node).found = s.notes.found := if_neg hlen
    refine ⟨?_, ?_, ?_, ?_⟩ <;> rw [hfound]
    · exact h.isClass
    · exact hold
    · intro x y hx hne hxy
      rcases (hb.settled_release hp).mp hx with hx | hx
      · exact h.complete x y hx hne hxy
      · -- both of the tied nodes would wait since the closed one
        have hy : y ∈ s.notes.since node := (htied y).mpr (((htied x).mp hx).trans hxy)
        have hpair : [x, y].Nodup := by simpa using hne
        have hsub : [x, y] ⊆ s.notes.since node :=
          List.cons_subset.mpr ⟨hx, List.cons_subset.mpr ⟨hy, List.nil_subset _⟩⟩
        exact absurd (List.subperm_of_subset hpair hsub).length_le hlen
    · exact h.order

theorem Classes.close (hids : ∀ a b, Follows next a b → b ∈ ids) (hb : Bound next ids s)
    (he : Entered next s) (hp : s.path = (node, []) :: path) (h : Classes next ids s) :
    Classes next ids ⟨s.fresh, path, s.notes.close node (nodesOn path)⟩ := by
  have hb' := hb.close hids he hp
  have hs : ∀ path' x, Settled ids ⟨s.fresh, path', s.notes.handOver node (nodesOn path)⟩ x ↔
      Settled ids s x := by
    intro path' x
    rw [Settled, Binding.waiting_handOver, Settled]
  rw [Binding.close_eq] at hb' ⊢
  split_ifs at hb' ⊢ with hlow
  · exact (h.congr Binding.found_handOver (hs s.path)).release (hb.handOver hp) hp hb'
  · exact h.congr Binding.found_handOver (hs path)

theorem Classes.move (hids : ∀ a b, Follows next a b → b ∈ ids)
    (m : Move bindingVisitor next s roots closed s' roots' closed') (he : Entered next s)
    (hb : Bound next ids s) (h : Classes next ids s) : Classes next ids s' := by
  cases m with
  | root hp hf => exact h.congr rfl fun x => settled_enter hf
  | skip hp hf => exact h
  | close hp => exact h.close hids hb he hp
  | descend hp hf => exact h.congr rfl fun x => settled_enter hf
  | meet hp hf =>
    refine h.congr Binding.found_meet fun x => ?_
    simp only [Settled, bindingVisitor, Binding.waiting_meet]

end Traversal

/-! ## The whole search -/

section Search

variable {next : String → List String} {ids : List String}

theorem not_settled_start {x : String} :
    ¬ Traversal.Settled ids ⟨ids.eraseDups, [], {}⟩ x :=
  fun h => h.2.1 (List.mem_eraseDups.mpr h.1)

theorem bound_start : Traversal.Bound next ids ⟨ids.eraseDups, [], {}⟩ where
  entered _ hx := absurd hx List.not_mem_nil
  below _ hx := absurd hx List.not_mem_nil
  ordered := List.Pairwise.nil
  opened := List.nil_sublist _
  inward _ hp := absurd hp List.not_mem_nil
  outward _ hx := absurd hx List.not_mem_nil
  reached _ hp := absurd hp List.not_mem_nil
  known _ hx := absurd hx List.not_mem_nil
  settled _ _ hx := absurd hx not_settled_start

theorem classes_start : Traversal.Classes next ids ⟨ids.eraseDups, [], {}⟩ where
  isClass _ hm := absurd hm List.not_mem_nil
  settled _ hm := absurd hm List.not_mem_nil
  complete _ _ hx := absurd hx not_settled_start
  order := List.Pairwise.nil

theorem classes_depthFirst (next : String → List String) (ids : List String)
    (hids : ∀ a b, Follows next a b → b ∈ ids) :
    ∃ s : Traversal.ForComponents, s.notes = depthFirst bindingVisitor next ids {} ∧
      Traversal.Classes next ids s ∧ ∀ x ∈ ids, Traversal.Settled ids s x := by
  obtain ⟨s, closed, hs, hp, hv, -, hb, hc⟩ := depthFirst_keeps ids {}
    (I := fun s _ => Traversal.Entered next s ∧ Traversal.Bound next ids s ∧
      Traversal.Classes next ids s)
    ⟨fun _ hx => absurd hx List.not_mem_nil, bound_start, classes_start⟩
    fun hv m h => ⟨h.1.move m, h.2.1.move hids hv m h.1, h.2.2.move hids m h.1 h.2.1⟩
  refine ⟨s, hs, hc, fun x hx => ⟨hx, (hv.finished hp).1 x, fun hw => ?_⟩⟩
  obtain ⟨p, hpo, -⟩ := hb.outward x hw
  rw [Traversal.openNodes, hp] at hpo
  cases hpo

end Search

namespace Graph

theorem exists_classes (g : Graph) :
    ∃ s : Traversal.ForComponents, g.components = s.notes.found.reverse ∧
      Traversal.Classes g.ahead.targets g.ids s ∧ ∀ x ∈ g.ids, Traversal.Settled g.ids s x := by
  obtain ⟨s, hs, hc, hall⟩ := classes_depthFirst g.ahead.targets g.ids fun a b h =>
    (mem_ahead.mp h).target_mem
  exact ⟨s, by rw [components, hs], hc, hall⟩

theorem mem_components {g : Graph} {c : List String} (h : c ∈ g.components) :
    c.Nodup ∧ 2 ≤ c.length ∧ (∀ x ∈ c, x ∈ g.ids) ∧ ∃ a, ∀ x, x ∈ c ↔ Tied g.DependsOn a x := by
  obtain ⟨s, hs, hc, -⟩ := g.exists_classes
  rw [hs, List.mem_reverse] at h
  obtain ⟨hnodup, hlen, hclass⟩ := hc.isClass c h
  rw [follows_ahead] at hclass
  exact ⟨hnodup, hlen, fun x hx => (hc.settled c h x hx).1, hclass⟩

theorem exists_component {g : Graph} {a b : String} (hne : a ≠ b) (h : Tied g.DependsOn a b) :
    ∃ c ∈ g.components, ∀ x, x ∈ c ↔ Tied g.DependsOn a x := by
  have ha : a ∈ g.ids := ((Reaches.eq_or_mem h.1).resolve_left hne).1
  obtain ⟨s, hs, hc, hall⟩ := g.exists_classes
  obtain ⟨c, hm, hac⟩ := hc.complete a b (hall a ha) hne (g.follows_ahead ▸ h)
  have hmem : c ∈ g.components := hs ▸ List.mem_reverse.mpr hm
  obtain ⟨-, -, -, e, he⟩ := mem_components hmem
  have hea := (he a).mp hac
  refine ⟨c, hmem, fun x => (he x).trans ⟨hea.symm.trans, hea.trans⟩⟩

theorem components_order (g : Graph) :
    g.components.Pairwise fun c c' => ∀ x ∈ c, ∀ y ∈ c', ¬ g.Reaches x y := by
  obtain ⟨s, hs, hc, -⟩ := g.exists_classes
  have horder := hc.order
  rw [follows_ahead] at horder
  rw [hs, List.pairwise_reverse]
  exact horder

/-- **Components of a graph** are the classes of two and more nodes tied to each other, each once,
and a component stands before those that reach it. -/
theorem components_are_tied_classes (g : Graph) :
    (∀ c ∈ g.components, c.Nodup ∧ 2 ≤ c.length ∧ (∀ x ∈ c, x ∈ g.ids) ∧
      ∃ a, ∀ x, x ∈ c ↔ Tied g.DependsOn a x) ∧
    (∀ a b, a ≠ b → ((∃ c ∈ g.components, a ∈ c ∧ b ∈ c) ↔ g.Reaches a b ∧ g.Reaches b a)) ∧
    (∀ a b, a ≠ b → Tied g.DependsOn a b → ∃! i : Fin g.components.length,
      ∀ x, x ∈ g.components.get i ↔ Tied g.DependsOn a x) ∧
    ∀ i j : Fin g.components.length, i ≠ j → ∀ x ∈ g.components.get i, ∀ y ∈ g.components.get j,
      g.Reaches x y → j < i := by
  have hself : ∀ a, Tied g.DependsOn a a := fun a => ⟨.refl, .refl⟩
  have horder : ∀ i j : Fin g.components.length, i ≠ j → ∀ x ∈ g.components.get i,
      ∀ y ∈ g.components.get j, g.Reaches x y → j < i := by
    intro i j hij x hx y hy hxy
    rcases lt_or_gt_of_ne hij with hlt | hlt
    · exact absurd hxy (List.pairwise_iff_get.mp g.components_order i j hlt x hx y hy)
    · exact hlt
  refine ⟨fun c hc => mem_components hc, fun a b hne => ⟨?_, fun h => ?_⟩, fun a b hne h => ?_,
    horder⟩
  · rintro ⟨c, hc, ha, hb⟩
    obtain ⟨-, -, -, e, he⟩ := mem_components hc
    exact ((he a).mp ha).symm.trans ((he b).mp hb)
  · obtain ⟨c, hc, hclass⟩ := exists_component hne h
    exact ⟨c, hc, (hclass a).mpr (hself a), (hclass b).mpr h⟩
  · obtain ⟨c, hc, hclass⟩ := exists_component hne h
    obtain ⟨i, rfl⟩ := List.get_of_mem hc
    refine ⟨i, hclass, fun j hj => ?_⟩
    by_contra hji
    -- both components hold `a`, which reaches itself
    have hi := (hclass a).mpr (hself a)
    have hj' := (hj a).mpr (hself a)
    exact lt_asymm (horder j i hji a hj' a hi .refl) (horder i j (Ne.symm hji) a hi a hj' .refl)

end Graph

end CodeAtlas
