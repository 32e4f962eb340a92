import CodeAtlas.Proofs.Graph.BreadthFirst
import CodeAtlas.Proofs.Graph.Drafting

/-!
# Children and containment depth

The names of parents need not form a tree: a parent may be unknown, and names may lead in a circle.
The depth is found by a search down to children, and agrees with the way up because a node names one
parent.

* **`Drafting.children_and_depth`**: children and depth of a finished graph, after any calls.
-/

namespace CodeAtlas

/-! ## Children -/

section Children

variable {nodes : List Node} {id : String}

theorem parent?_eq_some_iff {n : Node} : n.parent? = some id ↔ id ≠ "" ∧ n.parentId = some id := by
  rw [Node.parent?, Option.filter_eq_some_iff, and_comm]
  simp

theorem mem_childrenOf {child : String} :
    child ∈ childrenOf nodes id ↔ ∃ n ∈ nodes, n.parent? = some id ∧ n.id = child := by
  simp only [childrenOf, List.mem_map, List.mem_filter, beq_iff_eq, and_assoc]

theorem childrenOf_sublist (nodes : List Node) (id : String) :
    (childrenOf nodes id).Sublist (nodes.map (·.id)) :=
  List.filter_sublist.map _

theorem id_mem_childrenOf (hd : (nodes.map (·.id)).Nodup) {n : Node} (hn : n ∈ nodes) :
    n.id ∈ childrenOf nodes id ↔ n.parent? = some id := by
  rw [mem_childrenOf]
  constructor
  · rintro ⟨m, hm, hparent, hid⟩
    rwa [← List.inj_on_of_nodup_map hd hm hn hid]
  · exact fun hparent => ⟨n, hn, hparent, rfl⟩

end Children

/-! ## Steps up -/

/-- That many steps from a node, parent by parent, lead to a node that names none. -/
inductive Rises (nodes : List Node) : Node → ℕ → Prop
  | top {n : Node} (hn : n ∈ nodes) (hparent : n.parent? = none) : Rises nodes n 0
  | step {n p : Node} {k : ℕ} (hn : n ∈ nodes) (hparent : n.parent? = some p.id)
      (hp : Rises nodes p k) : Rises nodes n (k + 1)

namespace Rises

variable {nodes : List Node} {n : Node} {j k : ℕ}

theorem mem (h : Rises nodes n k) : n ∈ nodes := by
  cases h <;> assumption

theorem unique (hd : (nodes.map (·.id)).Nodup) (h : Rises nodes n k) (h' : Rises nodes n j) :
    k = j := by
  induction h generalizing j with
  | top _ hparent =>
    cases h' with
    | top => rfl
    | step _ hparent' => exact absurd (hparent.symm.trans hparent') (by simp)
  | @step n p k _ hparent hp ih =>
    cases h' with
    | top _ hparent' => exact absurd (hparent'.symm.trans hparent) (by simp)
    | @step _ q _ _ hparent' hq =>
      have hid : p.id = q.id := Option.some.inj (hparent.symm.trans hparent')
      obtain rfl := List.inj_on_of_nodup_map hd hp.mem hq.mem hid
      rw [ih hq]

end Rises

/-! ## Steps down -/

section Depth

variable {nodes : List Node} {n p : Node} {j k : ℕ} {id : String}

theorem inside_childrenOf (nodes : List Node) (start : String) :
    Inside (childrenOf nodes) (start :: nodes.map (·.id)) = fun a b => b ∈ childrenOf nodes a := by
  funext a b
  exact propext ⟨And.left, fun h =>
    ⟨h, List.mem_cons_of_mem _ ((childrenOf_sublist nodes a).subset h)⟩⟩

theorem Rises.exists_steps (h : Rises nodes n k) :
    ∃ top ∈ nodes, top.parent? = none ∧
      Steps (fun a b => b ∈ childrenOf nodes a) k top.id n.id := by
  induction h with
  | @top n hn hparent => exact ⟨n, hn, hparent, .stay _⟩
  | @step n p k hn hparent hp ih =>
    obtain ⟨top, htop, hnone, hsteps⟩ := ih
    exact ⟨top, htop, hnone, hsteps.concat (mem_childrenOf.mpr ⟨n, hn, hparent, rfl⟩)⟩

theorem Rises.of_steps (h : Rises nodes p j)
    (hsteps : Steps (fun a b => b ∈ childrenOf nodes a) k p.id id) :
    ∃ n, n.id = id ∧ Rises nodes n (j + k) := by
  generalize hstart : p.id = start at hsteps
  induction hsteps generalizing p j with
  | stay a => exact ⟨p, hstart, h⟩
  | step hchild _ ih =>
    subst hstart
    obtain ⟨c, hc, hparent, rfl⟩ := mem_childrenOf.mp hchild
    obtain ⟨n, hn, hrises⟩ := ih (Rises.step hc hparent h) rfl
    exact ⟨n, hn, by rwa [Nat.add_right_comm, Nat.add_assoc] at hrises⟩

/-- A node that rises lies as far below the top of its way by every way down. -/
theorem Rises.exists_isDistance (hd : (nodes.map (·.id)).Nodup) (h : Rises nodes n k) :
    ∃ top ∈ nodes, top.parent? = none ∧
      IsDistance (fun a b => b ∈ childrenOf nodes a) top.id n.id k := by
  obtain ⟨top, htop, hnone, hsteps⟩ := h.exists_steps
  refine ⟨top, htop, hnone, hsteps, fun j hj => ?_⟩
  obtain ⟨m, hid, hm⟩ := (Rises.top htop hnone).of_steps hj
  obtain rfl := List.inj_on_of_nodup_map hd hm.mem h.mem hid
  rw [h.unique hd hm, Nat.zero_add]

theorem Rises.exists_le_depthBelow (hd : (nodes.map (·.id)).Nodup) (h : Rises nodes n k) :
    ∃ top ∈ nodes, top.parent? = none ∧ k ≤ depthBelow nodes top.id := by
  obtain ⟨top, htop, hnone, hdistance⟩ := h.exists_isDistance hd
  rw [← inside_childrenOf nodes top.id] at hdistance
  refine ⟨top, htop, hnone, (isGreatest_foldl_max _ 0).2 (List.mem_cons_of_mem _ ?_)⟩
  exact List.mem_map_of_mem (mem_within.mpr ⟨hdistance, rfl⟩)

theorem exists_rises_depthBelow (hp : p ∈ nodes) (hparent : p.parent? = none) :
    ∃ n, Rises nodes n (depthBelow nodes p.id) := by
  have htop := Rises.top hp hparent
  have hgreatest := isGreatest_foldl_max
    ((within (childrenOf nodes) (nodes.map (·.id)) p.id none).map (·.2)) 0
  rw [← depthBelow] at hgreatest
  rcases List.mem_cons.mp hgreatest.1 with hzero | hmem
  · exact ⟨p, hzero ▸ htop⟩
  · obtain ⟨⟨id, k⟩, hk, hdepth⟩ := List.mem_map.mp hmem
    have hdistance := (mem_within.mp hk).1
    rw [inside_childrenOf] at hdistance
    obtain ⟨n, -, hn⟩ := htop.of_steps hdistance.1
    rw [Nat.zero_add] at hn
    exact ⟨n, by rwa [← hdepth]⟩

/-- **The containment depth** is the greatest number of steps up, zero if no node rises. -/
theorem isGreatest_containmentDepth (hd : (nodes.map (·.id)).Nodup) :
    IsGreatest (insert 0 {k | ∃ n, Rises nodes n k}) (containmentDepth nodes) := by
  have hgreatest := isGreatest_foldl_max
    ((nodes.filter fun n => n.parent?.isNone).map fun n => depthBelow nodes n.id) 0
  refine ⟨?_, ?_⟩
  · rcases List.mem_cons.mp hgreatest.1 with hzero | hmem
    · exact Or.inl hzero
    · obtain ⟨top, htop, hdepth⟩ := List.mem_map.mp hmem
      obtain ⟨htop, hnone⟩ := List.mem_filter.mp htop
      rw [containmentDepth, ← hdepth]
      exact Or.inr (exists_rises_depthBelow htop (Option.isNone_iff_eq_none.mp hnone))
  · rintro k (rfl | ⟨n, hn⟩)
    · exact Nat.zero_le _
    · obtain ⟨top, htop, hnone, hk⟩ := hn.exists_le_depthBelow hd
      have hmem : top ∈ nodes.filter fun n => n.parent?.isNone :=
        List.mem_filter.mpr ⟨htop, Option.isNone_iff_eq_none.mpr hnone⟩
      exact hk.trans (hgreatest.2 (List.mem_cons_of_mem _ (List.mem_map_of_mem hmem)))

end Depth

/-! ## Settled nodes -/

section Settled

variable {nodes : List Node} {change : Node → Node}

theorem childrenOf_map (hid : ∀ n, (change n).id = n.id)
    (hparent : ∀ n, (change n).parentId = n.parentId) :
    childrenOf (nodes.map change) = childrenOf nodes := by
  funext id
  simp only [childrenOf, List.filter_map, List.map_map, Function.comp_def, Node.parent?, hid,
    hparent]

theorem containmentDepth_map (hid : ∀ n, (change n).id = n.id)
    (hparent : ∀ n, (change n).parentId = n.parentId) :
    containmentDepth (nodes.map change) = containmentDepth nodes := by
  simp only [containmentDepth, depthBelow, childrenOf_map hid hparent, List.filter_map,
    List.map_map, Function.comp_def, Node.parent?, hid, hparent]

end Settled

namespace Draft

theorem childrenOf_settle (d : Draft) : childrenOf d.settle.nodes = childrenOf d.nodes :=
  childrenOf_map (fun _ => rfl) fun _ => rfl

theorem containmentDepth_settle (d : Draft) :
    containmentDepth d.settle.nodes = containmentDepth d.nodes :=
  containmentDepth_map (fun _ => rfl) fun _ => rfl

@[simp]
theorem settle_settle (d : Draft) : d.settle.settle = d.settle := by
  rw [settle, childrenOf_settle]
  simp [settle]

theorem graph_settle (d : Draft) (now later : String) :
    d.settle.graph later =
      { d.graph now with metadata := { (d.graph now).metadata with generatedAt := later } } := by
  simp only [graph, settle_settle, containmentDepth_settle]
  simp [settle]

end Draft

namespace Drafting

/-- **Children and depth.** After any calls, a node is a child of another just if it names it as its
parent. The depth is the greatest number of steps from a node, parent by parent, to a node that
names none. -/
theorem children_and_depth (calls : List DraftCall) (now later : String) :
    let s := ofCalls calls
    let g := s.draft.graph now
    -- the nodes
    g.ids = (s.nodes.map (·.id)).eraseDups ∧
    (∀ n ∈ g.nodes, ∃ m, (s.nodes.filter (·.id == n.id)).getLast? = some m ∧
      n = { m with children := n.children }) ∧
    -- their children
    (∀ p ∈ g.nodes, p.children.Sublist g.ids ∧ p.children.Nodup ∧
      ∀ c ∈ g.nodes, (c.id ∈ p.children ↔ p.id ≠ "" ∧ c.parentId = some p.id)) ∧
    (∀ p ∈ g.nodes, ∀ q ∈ g.nodes, ∀ id ∈ p.children, id ∈ q.children → p = q) ∧
    -- the depth
    (∃ depth : ℕ, g.metadata.maxDepth = depth ∧
      IsGreatest (insert 0 {k | ∃ n, Rises g.nodes n k}) depth) ∧
    -- once more
    s.draft.settle.graph later =
      { g with metadata := { g.metadata with generatedAt := later } } := by
  intro s g
  have hkept : s.Kept := kept_ofCalls calls
  have hids : g.ids = (s.nodes.map (·.id)).eraseDups :=
    (s.draft.ids_graph now).trans hkept.nodeIds
  have hd : (g.nodes.map (·.id)).Nodup := by
    change g.ids.Nodup
    rw [hids]
    exact nodup_eraseDups _
  have hchildren : ∀ p ∈ g.nodes, p.children = childrenOf g.nodes p.id := by
    intro p hp
    obtain ⟨n, -, rfl⟩ := List.mem_map.mp hp
    exact (congrFun s.draft.childrenOf_settle n.id).symm
  refine ⟨hids, fun n hn => ?_, fun p hp => ?_, fun p hp q hq id hid hid' => ?_,
    ⟨_, rfl, ?_⟩, s.draft.graph_settle now later⟩
  · obtain ⟨m, hm, rfl⟩ := List.mem_map.mp hn
    exact ⟨m, hkept.latest m hm, rfl⟩
  · rw [hchildren p hp]
    refine ⟨childrenOf_sublist _ _, hd.sublist (childrenOf_sublist _ _), fun c hc => ?_⟩
    rw [id_mem_childrenOf hd hc, parent?_eq_some_iff]
  · -- the child names one parent
    rw [hchildren p hp] at hid
    rw [hchildren q hq] at hid'
    obtain ⟨c, hc, hparent, rfl⟩ := mem_childrenOf.mp hid
    have hparent' := (id_mem_childrenOf hd hc).mp hid'
    exact List.inj_on_of_nodup_map hd hp hq (Option.some.inj (hparent.symm.trans hparent'))
  · rw [← s.draft.containmentDepth_settle]
    exact isGreatest_containmentDepth hd

end Drafting

end CodeAtlas
