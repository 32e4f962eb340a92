import CodeAtlas.Layout.Levels
import CodeAtlas.Proofs.Graph.Cycles
import Mathlib.Data.Fintype.Card
import Mathlib.Data.List.Perm.Subperm
import Mathlib.Data.Set.Finite.Basic

/-!
# Layers are longest paths

A node whose turn has come waits for no edge, so no edge that is followed later can move it. The
nodes whose turn comes are those that no cycle leads to.

* **`Graph.layers_are_longest_paths`**: the layer of each node of a graph.
-/

namespace CodeAtlas

open Relation

/-! ## Nodes that no cycle leads to -/

/-- The node is neither on a cycle nor can it be reached from one. -/
def Clear (r : String → String → Prop) (v : String) : Prop :=
  ∀ u, ReflTransGen r u v → ¬ TransGen r u u

/-- There is a path of that length into the node, and no walk is longer. -/
structure IsHeight (r : String → String → Prop) (v : String) (n : ℕ) : Prop where
  path : ∃ nodes : List String, nodes.IsChain r ∧ nodes.Nodup ∧ nodes.getLast? = some v ∧
    nodes.length = n + 1
  longest : ∀ nodes : List String, nodes.IsChain r → nodes.getLast? = some v →
    nodes.length ≤ n + 1

section Relation

variable {r : String → String → Prop} {u v : String}

theorem Clear.of_step (h : Clear r v) (huv : r u v) : Clear r u :=
  fun w hw => h w (hw.tail huv)

theorem clear_of_acyclic (h : Acyclic r) (v : String) : Clear r v := fun u _ => h u

/-- What passes from predecessors to a node holds of all nodes that no cycle leads to. -/
theorem Clear.induction {ids : List String} (hids : ∀ a b, r a b → a ∈ ids) {P : String → Prop}
    (step : ∀ v ∈ ids, Clear r v → (∀ u, r u v → P u) → P v) (hmem : v ∈ ids) (hv : Clear r v) :
    P v := by
  let before (a b : {x // x ∈ ids ∧ Clear r x}) : Prop := TransGen r a b
  have hfinite : Finite {x // x ∈ ids ∧ Clear r x} :=
    Set.Finite.subset ids.finite_toSet fun x hx => hx.1
  have htrans : IsTrans _ before := ⟨fun a b c hab hbc => TransGen.trans hab hbc⟩
  have hirrefl : Std.Irrefl before := ⟨fun a ha => a.2.2 a .refl ha⟩
  have hwf : WellFounded before := Finite.wellFounded_of_trans_of_irrefl before
  suffices h : ∀ x : {x // x ∈ ids ∧ Clear r x}, P x from h ⟨v, hmem, hv⟩
  intro x
  induction x using hwf.induction with
  | _ x ih =>
    refine step x x.2.1 x.2.2 fun u hu => ?_
    exact ih ⟨u, hids u x hu, x.2.2.of_step hu⟩ (TransGen.single hu)

end Relation

/-! ## Layers at the end -/

/-- Layers in which edges from nodes whose turn has come lead down, and no node is lower than these
put it. -/
structure Ranked (r : String → String → Prop) (ids done : List String) (layer : String → ℕ) :
    Prop where
  known : ∀ a b, r a b → a ∈ ids ∧ b ∈ ids
  turn : ∀ v, v ∈ done ↔ v ∈ ids ∧ ∀ u, r u v → u ∈ done
  falls : ∀ u v, r u v → u ∈ done → layer u < layer v
  rests : ∀ v, layer v = 0 ∨ ∃ u ∈ done, r u v ∧ layer v = layer u + 1

namespace Ranked

variable {r : String → String → Prop} {ids done : List String} {layer : String → ℕ} {u v : String}

theorem mem_of_step (h : Ranked r ids done layer) (hv : v ∈ done) (huv : r u v) : u ∈ done :=
  ((h.turn v).mp hv).2 u huv

theorem mem_of_reaches (h : Ranked r ids done layer) (hv : v ∈ done) (huv : ReflTransGen r u v) :
    u ∈ done := by
  induction huv using ReflTransGen.head_induction_on with
  | refl => exact hv
  | head hab _ ih => exact h.mem_of_step ih hab

theorem lt_of_transGen (h : Ranked r ids done layer) (hv : v ∈ done) (huv : TransGen r u v) :
    layer u < layer v := by
  induction huv with
  | single hab => exact h.falls _ _ hab (h.mem_of_step hv hab)
  | tail _ hbc ih =>
    have hb := h.mem_of_step hv hbc
    exact (ih hb).trans (h.falls _ _ hbc hb)

/-- **The nodes whose turn comes** are those that no cycle leads to. -/
theorem mem_done_iff (h : Ranked r ids done layer) : v ∈ done ↔ v ∈ ids ∧ Clear r v := by
  constructor
  · intro hv
    refine ⟨((h.turn v).mp hv).1, fun u huv hcycle => ?_⟩
    exact Nat.lt_irrefl _ (h.lt_of_transGen (h.mem_of_reaches hv huv) hcycle)
  · rintro ⟨hmem, hv⟩
    refine Clear.induction (fun a b hab => (h.known a b hab).1) (fun w hw _ ih => ?_) hmem hv
    exact (h.turn w).mpr ⟨hw, ih⟩

theorem length_le (h : Ranked r ids done layer) {nodes : List String} (hchain : nodes.IsChain r)
    (hlast : nodes.getLast? = some v) (hv : v ∈ done) : nodes.length ≤ layer v + 1 := by
  induction nodes using List.reverseRecOn generalizing v with
  | nil => cases hlast
  | append_singleton nodes w ih =>
    rw [List.getLast?_concat, Option.some_inj] at hlast
    subst hlast
    obtain ⟨hnodes, -, hjoin⟩ := List.isChain_append.mp hchain
    rw [List.length_append, List.length_singleton]
    cases hu : nodes.getLast? with
    | none =>
      rw [List.getLast?_eq_none_iff.mp hu, List.length_nil]
      omega
    | some u =>
      have huw : r u w := hjoin u hu w rfl
      have hdone := h.mem_of_step hv huw
      have hlen := ih hnodes hu hdone
      have hlt := h.falls u w huw hdone
      omega

theorem exists_path (h : Ranked r ids done layer) (v : String) :
    ∃ nodes : List String, nodes.IsChain r ∧ nodes.Nodup ∧ nodes.getLast? = some v ∧
      nodes.length = layer v + 1 ∧ ∀ x ∈ nodes, layer x ≤ layer v := by
  induction hn : layer v generalizing v with
  | zero =>
    refine ⟨[v], .singleton v, List.nodup_singleton v, rfl, rfl, fun x hx => ?_⟩
    rw [List.mem_singleton.mp hx, hn]
  | succ n ih =>
    obtain hzero | ⟨u, hdone, huv, hlayer⟩ := h.rests v
    · omega
    obtain ⟨nodes, hchain, hnodup, hlast, hlen, hle⟩ := ih u (by omega)
    refine ⟨nodes ++ [v], ?_, ?_, List.getLast?_concat, by simp [hlen], fun x hx => ?_⟩
    · refine List.isChain_append.mpr ⟨hchain, .singleton v, fun x hx y hy => ?_⟩
      obtain rfl : u = x := Option.some.inj (hlast.symm.trans hx)
      obtain rfl : v = y := Option.some.inj hy
      exact huv
    · -- the nodes so far are all higher up
      refine List.Nodup.append hnodup (List.nodup_singleton v) fun x hx hx' => ?_
      have hx := hle x hx
      rw [List.mem_singleton.mp hx'] at hx
      omega
    · rcases List.mem_append.mp hx with hx | hx
      · exact (hle x hx).trans (Nat.le_succ n)
      · rw [List.mem_singleton.mp hx, hn]

/-- The layer of a node whose turn has come is the length of the longest paths into it. -/
theorem isHeight (h : Ranked r ids done layer) (hv : v ∈ done) : IsHeight r v (layer v) := by
  obtain ⟨nodes, hchain, hnodup, hlast, hlen, -⟩ := h.exists_path v
  exact ⟨⟨nodes, hchain, hnodup, hlast, hlen⟩, fun nodes hchain hlast =>
    h.length_le hchain hlast hv⟩

end Ranked

/-! ## Edges followed one by one -/

namespace Layering

def layer (l : Layering) (v : String) : ℕ := l.layers.getD v 0

variable {pairs followed : List (String × String)} {ids done : List String} {l : Layering}

/-- The layering after the edges `followed`, all of them from nodes whose turn has come. -/
structure Tracks (pairs followed : List (String × String)) (ids done : List String)
    (l : Layering) : Prop where
  known : ∀ p ∈ pairs, p.2 ∈ ids
  within : followed.Subperm pairs
  sources : ∀ p ∈ followed, p.1 ∈ done
  waiting : ∀ v ∈ ids, l.waiting.getD v 0 =
    (pairs.countP (·.2 == v) : ℤ) - followed.countP (·.2 == v)
  turn : ∀ v, v ∈ done ++ l.queue ↔
    v ∈ ids ∧ pairs.countP (·.2 == v) = followed.countP (·.2 == v)
  once : (done ++ l.queue).Nodup
  falls : ∀ p ∈ followed, l.layer p.1 < l.layer p.2
  rests : ∀ v, l.layer v = 0 ∨ ∃ u, (u, v) ∈ followed ∧ l.layer v = l.layer u + 1
  keys : l.layers.keys.Nodup ∧ l.layers.keys ⊆ ids

theorem layer_followEdge (source target v : String) :
    (followEdge source l target).layer v =
      if v = target then max (l.layer target) (l.layer source + 1) else l.layer v := by
  unfold layer followEdge Table.getD
  rw [Table.get?_put]
  split_ifs <;> rfl

theorem waiting_followEdge (source target v : String) :
    (followEdge source l target).waiting.getD v 0 =
      if v = target then l.waiting.getD target 0 - 1 else l.waiting.getD v 0 := by
  unfold followEdge Table.getD
  rw [Table.get?_put]
  split_ifs <;> rfl

namespace Tracks

section Step

variable {source target : String} (h : Tracks pairs followed ids done l)
  (hwithin : (followed ++ [(source, target)]).Subperm pairs)

include h hwithin

theorem notMem_of_within : target ∉ done ++ l.queue := by
  intro hmem
  have heq := ((h.turn target).mp hmem).2
  have hle := hwithin.countP_le (·.2 == target)
  simp only [List.countP_append, List.countP_singleton, beq_self_eq_true, if_true] at hle
  omega

theorem mem_of_within : target ∈ ids :=
  h.known _ (hwithin.subset (List.mem_append_right _ (List.mem_singleton_self _)))

/-- The target of an edge still waits, so none whose turn has come is moved. -/
theorem layer_of_mem_done {u : String} (hu : u ∈ done) :
    (followEdge source l target).layer u = l.layer u := by
  rw [layer_followEdge, if_neg]
  rintro rfl
  exact h.notMem_of_within hwithin (List.mem_append_left _ hu)

/-- With the last edge to it the turn of a node comes. -/
theorem queue_followEdge : (followEdge source l target).queue =
    if pairs.countP (·.2 == target) = followed.countP (·.2 == target) + 1 then
      l.queue ++ [target] else l.queue := by
  unfold followEdge
  dsimp only
  rw [h.waiting target (h.mem_of_within hwithin)]
  split_ifs <;> first | rfl | omega

variable (hsource : source ∈ done)

include hsource

theorem falls_followEdge {p : String × String} (hp : p ∈ followed ++ [(source, target)]) :
    (followEdge source l target).layer p.1 < (followEdge source l target).layer p.2 := by
  rcases List.mem_append.mp hp with hp | hp
  · have hlt := h.falls p hp
    rw [h.layer_of_mem_done hwithin (h.sources p hp), layer_followEdge]
    split_ifs with heq
    · rw [heq] at hlt
      omega
    · exact hlt
  · rw [List.mem_singleton.mp hp, h.layer_of_mem_done hwithin hsource, layer_followEdge, if_pos rfl]
    omega

theorem rests_followEdge (v : String) : (followEdge source l target).layer v = 0 ∨
    ∃ u, (u, v) ∈ followed ++ [(source, target)] ∧
      (followEdge source l target).layer v = (followEdge source l target).layer u + 1 := by
  rw [layer_followEdge]
  by_cases hnew : v = target ∧ l.layer v ≤ l.layer source + 1
  · obtain ⟨rfl, hle⟩ := hnew
    refine Or.inr ⟨source, List.mem_append_right _ (List.mem_singleton_self _), ?_⟩
    rw [if_pos rfl, h.layer_of_mem_done hwithin hsource]
    omega
  · -- the edge leaves the node where an earlier one has put it
    have hold : (if v = target then max (l.layer target) (l.layer source + 1) else l.layer v) =
        l.layer v := by
      split_ifs with hv
      · rw [← hv, max_eq_left (le_of_not_ge fun hle => hnew ⟨hv, hle⟩)]
      · rfl
    rw [hold]
    refine (h.rests v).imp_right fun ⟨u, hu, hlayer⟩ => ⟨u, List.mem_append_left _ hu, ?_⟩
    rw [h.layer_of_mem_done hwithin (h.sources _ hu), hlayer]

/-- **One more edge followed.** -/
theorem followEdge :
    Tracks pairs (followed ++ [(source, target)]) ids done (followEdge source l target) := by
  have hwaits := h.notMem_of_within hwithin
  have htarget := h.mem_of_within hwithin
  have hcount : ∀ v, (followed ++ [(source, target)]).countP (·.2 == v) =
      followed.countP (·.2 == v) + if v = target then 1 else 0 := by
    intro v
    rw [List.countP_append, List.countP_singleton]
    by_cases hv : v = target
    · simp [hv]
    · simp [hv, Ne.symm hv]
  constructor
  case known => exact h.known
  case within => exact hwithin
  case sources =>
    intro p hp
    rcases List.mem_append.mp hp with hp | hp
    · exact h.sources p hp
    · rw [List.mem_singleton.mp hp]
      exact hsource
  case waiting =>
    intro v hv
    rw [waiting_followEdge, hcount]
    split_ifs with heq
    · subst heq
      rw [h.waiting v hv]
      omega
    · rw [h.waiting v hv]
      omega
  case turn =>
    intro v
    rw [hcount, h.queue_followEdge hwithin]
    by_cases hv : v = target
    · subst hv
      rw [if_pos rfl]
      split_ifs with hlast
      · simp [htarget, hlast]
      · simp only [hwaits, htarget, hlast, and_false]
    · rw [if_neg hv, Nat.add_zero (followed.countP _), ← h.turn v]
      split_ifs
      · simp [hv]
      · rfl
  case once =>
    rw [h.queue_followEdge hwithin]
    split_ifs
    · rw [← List.append_assoc]
      refine List.Nodup.append h.once (List.nodup_singleton target) fun v hv hv' => ?_
      rw [List.mem_singleton.mp hv'] at hv
      exact hwaits hv
    · exact h.once
  case falls => exact fun p => h.falls_followEdge hwithin hsource
  case rests => exact h.rests_followEdge hwithin hsource
  case keys =>
    unfold Layering.followEdge
    dsimp only
    rw [Table.keys_put]
    refine ⟨nodup_addOnce h.keys.1 target, fun v hv => ?_⟩
    rcases mem_addOnce.mp hv with hv | rfl
    · exact h.keys.2 hv
    · exact htarget

end Step

variable {source : String}

theorem foldl_followEdge (h : Tracks pairs followed ids done l) (hsource : source ∈ done)
    (targets : List String)
    (hwithin : (followed ++ targets.map (source, ·)).Subperm pairs) :
    Tracks pairs (followed ++ targets.map (source, ·)) ids done
      (targets.foldl (Layering.followEdge source) l) := by
  induction targets generalizing followed l with
  | nil => simpa using h
  | cons target targets ih =>
    have happend : followed ++ (target :: targets).map (source, ·) =
        followed ++ [(source, target)] ++ targets.map (source, ·) := by simp
    rw [happend] at hwithin ⊢
    have hone : (followed ++ [(source, target)]).Subperm pairs :=
      (List.sublist_append_left _ _).subperm.trans hwithin
    exact ih (h.followEdge hone hsource) hwithin

/-- The layering after all edges from the nodes whose turn has come. -/
def All (pairs : List (String × String)) (ids done : List String) (l : Layering) : Prop :=
  ∃ followed, followed.Perm (pairs.filter fun p => decide (p.1 ∈ done)) ∧
    Tracks pairs followed ids done l

theorem All.next (h : All pairs ids done l) {rest : List String}
    (hqueue : l.queue = source :: rest) :
    All pairs ids (done ++ [source])
      (((pairs.filter (·.1 == source)).map (·.2)).foldl (Layering.followEdge source)
        { l with queue := rest }) := by
  obtain ⟨followed, hperm, htracks⟩ := h
  have hnodup := htracks.once
  have hnew : source ∉ done := by
    rw [hqueue] at hnodup
    intro hmem
    exact (List.nodup_append.mp hnodup).2.2 source hmem source List.mem_cons_self rfl
  have hqueued : done ++ l.queue = done ++ [source] ++ rest := by simp [hqueue]
  have hstart : Tracks pairs followed ids (done ++ [source]) { l with queue := rest } :=
    { htracks with
      sources := fun p hp => List.mem_append_left _ (htracks.sources p hp)
      turn := fun v => by rw [← hqueued]; exact htracks.turn v
      once := hqueued ▸ htracks.once }
  have hmap : ((pairs.filter (·.1 == source)).map (·.2)).map (source, ·) =
      pairs.filter (·.1 == source) := by
    rw [List.map_map]
    conv_rhs => rw [← List.map_id (pairs.filter (·.1 == source))]
    refine List.map_congr_left fun p hp => ?_
    have hp := beq_iff_eq.mp (List.mem_filter.mp hp).2
    exact Prod.ext hp.symm rfl
  have hall : (followed ++ pairs.filter (·.1 == source)).Perm
      (pairs.filter fun p => decide (p.1 ∈ done ++ [source])) := by
    have hsplit := List.filter_append_perm (fun p => decide (p.1 ∈ done))
      (pairs.filter fun p => decide (p.1 ∈ done ++ [source]))
    have hold : (fun p : String × String => decide (p.1 ∈ done) &&
        decide (p.1 ∈ done ++ [source])) = fun p => decide (p.1 ∈ done) := by
      funext p
      by_cases hp : p.1 ∈ done <;> simp [hp]
    have hlast : (fun p : String × String => !decide (p.1 ∈ done) &&
        decide (p.1 ∈ done ++ [source])) = (·.1 == source) := by
      funext p
      by_cases hp : p.1 = source
      · simp [hp, hnew]
      · by_cases hp' : p.1 ∈ done <;> simp [hp, hp']
    rw [List.filter_filter, List.filter_filter, hold, hlast] at hsplit
    exact (hperm.append_right _).trans hsplit
  have hrun := hstart.foldl_followEdge (List.mem_append_right _ (List.mem_singleton_self source))
    ((pairs.filter (·.1 == source)).map (·.2))
  rw [hmap] at hrun
  exact ⟨_, hall, hrun (hall.subperm.trans List.filter_sublist.subperm)⟩

/-- **All turns taken**, or as many as there may be. -/
theorem All.follow (h : All pairs ids done l) (fuel : ℕ) :
    ∃ done', All pairs ids done' (Layering.follow pairs fuel l) ∧
      ((Layering.follow pairs fuel l).queue = [] ∨ done'.length = done.length + fuel) := by
  induction fuel generalizing l done with
  | zero => exact ⟨done, h, Or.inr rfl⟩
  | succ fuel ih =>
    unfold Layering.follow
    split
    · rename_i hqueue
      exact ⟨done, h, Or.inl hqueue⟩
    · rename_i source rest hqueue
      obtain ⟨done', hall, hend⟩ := ih (h.next hqueue)
      refine ⟨done', hall, hend.imp_right fun hlen => ?_⟩
      rw [hlen, List.length_append, List.length_singleton]
      omega

end Tracks

theorem tracks_start (hids : ids.Nodup) (hpairs : ∀ p ∈ pairs, p.2 ∈ ids) :
    Tracks pairs [] ids [] (start pairs ids) := by
  have hzero : ∀ v, (start pairs ids).layer v = 0 := by
    intro v
    refine Table.getD_of_forall (P := (· = 0)) (fun entry hentry => ?_) rfl
    obtain ⟨id, -, rfl⟩ := List.mem_map.mp hentry
    rfl
  have hfree : ∀ v, (pairs.any (·.2 == v)) = false ↔ pairs.countP (·.2 == v) = 0 := by
    intro v
    rw [List.any_eq_false, List.countP_eq_zero]
  have hkeys : (start pairs ids).layers.keys =
      (ids.filter fun id => !pairs.any (·.2 == id)).eraseDups := by
    unfold start Table.keys
    dsimp only
    rw [List.map_map]
    exact List.map_id _
  constructor
  case known => exact hpairs
  case within => exact List.nil_subperm
  case sources => exact List.forall_mem_nil _
  case waiting =>
    intro v hv
    have hmem : (v, (pairs.countP (·.2 == v) : ℤ)) ∈ (start pairs ids).waiting :=
      List.mem_map.mpr ⟨v, List.mem_eraseDups.mpr hv, rfl⟩
    have hnodup : (start pairs ids).waiting.keys.Nodup := by
      unfold start Table.keys
      dsimp only
      rw [List.map_map]
      exact (List.map_id _).symm ▸ nodup_eraseDups ids
    rw [Table.getD, Table.get?_of_mem hnodup hmem]
    simp
  case turn =>
    intro v
    simp [start, hfree]
  case once => exact hids.filter _
  case falls => exact List.forall_mem_nil _
  case rests => exact fun v => Or.inl (hzero v)
  case keys =>
    rw [hkeys]
    exact ⟨nodup_eraseDups _, fun v hv => (List.mem_filter.mp (List.mem_eraseDups.mp hv)).1⟩

/-- As many pairs meet two conditions as the first just if the first gives the second. -/
theorem countP_and_eq_iff {α : Type} {p q : α → Bool} {xs : List α} :
    xs.countP p = xs.countP (fun x => p x && q x) ↔ ∀ x ∈ xs, p x = true → q x = true := by
  have hand : xs.countP (fun x => p x && q x) = (xs.filter p).countP q := by
    rw [List.countP_filter]
    exact List.countP_congr fun x _ => by rw [Bool.and_comm]
  rw [hand, List.countP_eq_length_filter, eq_comm, List.countP_eq_length]
  simp [List.mem_filter]

/-- **The layers when no turn is left.** -/
theorem exists_ranked (hids : ids.Nodup) (hpairs : ∀ p ∈ pairs, p.1 ∈ ids ∧ p.2 ∈ ids) :
    let l := follow pairs (2 * ids.length) (start pairs ids)
    (∃ done, Ranked (fun a b => (a, b) ∈ pairs) ids done l.layer) ∧
      l.layers.keys.Nodup ∧ l.layers.keys ⊆ ids := by
  intro l
  have hstart : Tracks.All pairs ids [] (start pairs ids) :=
    ⟨[], by simp, tracks_start hids fun p hp => (hpairs p hp).2⟩
  obtain ⟨done, ⟨followed, hperm, htracks⟩, hend⟩ := hstart.follow (2 * ids.length)
  -- each node has one turn at most, so there are turns enough
  have hlen : (done ++ l.queue).length ≤ ids.length :=
    htracks.once.length_le_of_subset fun v hv => ((htracks.turn v).mp hv).1
  have hqueue : l.queue = [] := by
    rcases hend with hqueue | hfuel
    · exact hqueue
    · rw [List.length_append, hfuel, List.length_nil] at hlen
      exact List.length_eq_zero_iff.mp (by omega)
  have hmem : ∀ a b, (a, b) ∈ followed ↔ (a, b) ∈ pairs ∧ a ∈ done := by
    intro a b
    rw [hperm.mem_iff, List.mem_filter, decide_eq_true_iff]
  have hcount : ∀ v, pairs.countP (·.2 == v) = followed.countP (·.2 == v) ↔
      ∀ u, (u, v) ∈ pairs → u ∈ done := by
    intro v
    rw [hperm.countP_eq, List.countP_filter, countP_and_eq_iff]
    constructor
    · intro h u hu
      exact of_decide_eq_true (h (u, v) hu (beq_self_eq_true v))
    · rintro h ⟨u, w⟩ hp hw
      obtain rfl : w = v := beq_iff_eq.mp hw
      exact decide_eq_true (h u hp)
  refine ⟨⟨done, fun a b hab => hpairs (a, b) hab, fun v => ?_, fun u v huv hu => ?_, fun v => ?_⟩,
    htracks.keys⟩
  · rw [← hcount, ← htracks.turn v]
    change _ ↔ v ∈ done ++ l.queue
    rw [hqueue, List.append_nil]
  · exact htracks.falls (u, v) ((hmem u v).mpr ⟨huv, hu⟩)
  · rcases htracks.rests v with hzero | ⟨u, hu, hlayer⟩
    · exact Or.inl hzero
    · obtain ⟨huv, hdone⟩ := (hmem u v).mp hu
      exact Or.inr ⟨u, hdone, huv, hlayer⟩

end Layering

/-! ## The layers of a graph -/

theorem foldl_keep (ids : List String) (t : Table String ℕ) :
    (∀ v, (ids.foldl (fun layers id => layers.keep id 0) t).getD v 0 = t.getD v 0) ∧
      (∀ v, v ∈ (ids.foldl (fun layers id => layers.keep id 0) t).keys ↔ v ∈ t.keys ∨ v ∈ ids) ∧
      (t.keys.Nodup → (ids.foldl (fun layers id => layers.keep id 0) t).keys.Nodup) := by
  induction ids generalizing t with
  | nil => simp
  | cons id ids ih =>
    obtain ⟨hvalue, hmem, hnodup⟩ := ih (t.keep id 0)
    rw [List.foldl_cons]
    refine ⟨fun v => (hvalue v).trans (Table.getD_keep t id v 0), fun v => ?_, fun ht => ?_⟩
    · rw [hmem, Table.keys_keep, mem_addOnce, List.mem_cons, or_assoc]
    · rw [Table.keys_keep] at hnodup
      exact hnodup (nodup_addOnce ht id)

theorem Table.eq_map_keys {t : Table String ℕ} (h : t.keys.Nodup) :
    t = t.keys.map fun v => (v, t.getD v 0) := by
  rw [keys, List.map_map]
  conv_lhs => rw [← List.map_id t]
  refine List.map_congr_left fun entry hentry => ?_
  have hget : t.get? entry.1 = some entry.2 := get?_of_mem h hentry
  simp [getD, hget]

theorem layersOf_perm {pairs : List (String × String)} {ids : List String} (hids : ids.Nodup)
    (hpairs : ∀ p ∈ pairs, p.1 ∈ ids ∧ p.2 ∈ ids) :
    ∃ layer done, Ranked (fun a b => (a, b) ∈ pairs) ids done layer ∧
      (layersOf pairs ids).Perm (ids.map fun v => (v, layer v)) := by
  obtain ⟨⟨done, hranked⟩, hnodup, hsubset⟩ := Layering.exists_ranked hids hpairs
  obtain ⟨hvalue, hmem, hkeys⟩ :=
    foldl_keep ids (Layering.follow pairs (2 * ids.length) (.start pairs ids)).layers
  refine ⟨_, done, hranked, ?_⟩
  rw [layersOf, Table.eq_map_keys (hkeys hnodup)]
  simp only [hvalue]
  refine List.Perm.map _ ((List.perm_ext_iff_of_nodup (hkeys hnodup) hids).mpr fun v => ?_)
  rw [hmem]
  exact or_iff_right_of_imp fun hv => hsubset hv

namespace Graph

/-- **The layers of a graph.** For a node that no cycle leads to it is the length of the longest
paths into it. For another it is one more than the greatest layer of the predecessors that no cycle
leads to. -/
theorem layers_are_longest_paths (g : Graph) (hids : g.ids.Nodup) :
    ∃ layer : String → ℕ, g.layers.Perm (g.ids.map fun v => (v, layer v)) ∧
      (∀ v ∈ g.ids, Clear g.Connects v → IsHeight g.Connects v (layer v)) ∧
      (∀ v ∈ g.ids, ¬ Clear g.Connects v →
        ((∀ u, g.Connects u v → ¬ Clear g.Connects u) → layer v = 0) ∧
        ((∃ u, g.Connects u v ∧ Clear g.Connects u) →
          IsGreatest {n | ∃ u, g.Connects u v ∧ Clear g.Connects u ∧ n = layer u + 1} (layer v))) ∧
      (Acyclic g.Connects → ∀ u v, g.Connects u v → layer u < layer v) := by
  have hpairs : ∀ p ∈ g.connections, p.1 ∈ g.ids ∧ p.2 ∈ g.ids := by
    rintro ⟨a, b⟩ hp
    obtain ⟨ha, hb, -⟩ := mem_connections.mp hp
    exact ⟨ha, hb⟩
  obtain ⟨layer, done, hranked, hperm⟩ := layersOf_perm hids hpairs
  have hrelation : (fun a b => (a, b) ∈ g.connections) = g.Connects := by
    funext a b
    exact propext mem_connections
  rw [hrelation] at hranked
  have hdone : ∀ u v, g.Connects u v → (u ∈ done ↔ Clear g.Connects u) := by
    intro u v huv
    rw [hranked.mem_done_iff, and_iff_right huv.1]
  refine ⟨layer, hperm, fun v hv hclear => ?_, fun v hv _ => ⟨fun hnone => ?_, ?_⟩, ?_⟩
  · exact hranked.isHeight (hranked.mem_done_iff.mpr ⟨hv, hclear⟩)
  · rcases hranked.rests v with hzero | ⟨u, hu, huv, -⟩
    · exact hzero
    · exact absurd ((hdone u v huv).mp hu) (hnone u huv)
  · rintro ⟨u, huv, hclear⟩
    have hpos := hranked.falls u v huv ((hdone u v huv).mpr hclear)
    constructor
    · rcases hranked.rests v with hzero | ⟨w, hw, hwv, hlayer⟩
      · omega
      · exact ⟨w, hwv, (hdone w v hwv).mp hw, hlayer⟩
    · rintro n ⟨w, hwv, hw, rfl⟩
      exact hranked.falls w v hwv ((hdone w v hwv).mpr hw)
  · intro hacyclic u v huv
    exact hranked.falls u v huv ((hdone u v huv).mpr (clear_of_acyclic hacyclic u))

end Graph

/-! ## A cycle at the end of a path -/

namespace Lasso

def node (id : String) : Node := { id := id, kind := "file", name := id, path := id }

/-- A path, with a shortcut and a doubled edge, to a loop with one node behind it. -/
def graph : Graph where
  nodes := ["d", "c", "e", "b", "a"].map node
  edges := [.between "a" "b" "calls", .between "a" "b" "imports", .between "a" "c" "calls",
    .between "b" "c" "calls", .between "c" "d" "calls", .between "d" "d" "calls",
    .between "d" "e" "calls", .between "x" "a" "calls"]
  metadata := { generatedAt := "" }

theorem layers_eq : graph.layers = [("a", 0), ("b", 1), ("c", 2), ("d", 3), ("e", 0)] := by
  decide +kernel

theorem connections_eq : graph.connections =
    [("a", "b"), ("a", "b"), ("a", "c"), ("b", "c"), ("c", "d"), ("d", "d"), ("d", "e")] := by
  decide +kernel

theorem connects_iff {u v : String} : graph.Connects u v ↔ (u, v) ∈
    [("a", "b"), ("a", "b"), ("a", "c"), ("b", "c"), ("c", "d"), ("d", "d"), ("d", "e")] := by
  rw [← connections_eq, Graph.mem_connections]

def rank (v : String) : ℕ := ["a", "b", "c", "d", "e"].idxOf v

theorem rank_lt_of_transGen {u v : String} (h : TransGen graph.Connects u v) (hv : rank v ≤ 2) :
    rank u < rank v := by
  have hstep : ∀ p ∈ [("a", "b"), ("a", "b"), ("a", "c"), ("b", "c"), ("c", "d"), ("d", "d"),
      ("d", "e")], rank p.2 ≤ 2 → rank p.1 < rank p.2 := by decide
  induction h with
  | single huv => exact hstep _ (connects_iff.mp huv) hv
  | tail _ hbc ih =>
    have hlt := hstep _ (connects_iff.mp hbc) hv
    exact (ih (Nat.le_of_lt (Nat.lt_of_lt_of_le hlt hv))).trans hlt

theorem clear_c : Clear graph.Connects "c" := by
  intro u hu hcycle
  have hle : rank u ≤ 2 := by
    rcases reflTransGen_iff_eq_or_transGen.mp hu with rfl | hu
    · decide
    · exact (rank_lt_of_transGen hu (by decide)).le
  exact Nat.lt_irrefl _ (rank_lt_of_transGen hcycle hle)

theorem not_clear_d : ¬ Clear graph.Connects "d" :=
  fun h => h "d" .refl (.single (connects_iff.mpr (by decide)))

theorem not_clear_e : ¬ Clear graph.Connects "e" :=
  fun h => not_clear_d (h.of_step (connects_iff.mpr (by decide)))

end Lasso

/-- The end of the path has two edges above it, the loop is below, and the node behind is at the
top. -/
theorem Graph.layers_are_longest_paths_lasso :
    Lasso.graph.ids.Nodup ∧ IsHeight Lasso.graph.Connects "c" 2 ∧
    ∃ layer : String → ℕ, Lasso.graph.layers.Perm (Lasso.graph.ids.map fun v => (v, layer v)) ∧
      layer "c" = 2 ∧ layer "d" = 3 ∧ layer "e" = 0 ∧
      IsGreatest {n | ∃ u, Lasso.graph.Connects u "d" ∧ Clear Lasso.graph.Connects u ∧
        n = layer u + 1} (layer "d") := by
  have hids : Lasso.graph.ids.Nodup := by decide +kernel
  obtain ⟨layer, hperm, hheight, hstuck, -⟩ := layers_are_longest_paths Lasso.graph hids
  have hlayer : ∀ v n, (v, n) ∈ Lasso.graph.layers → layer v = n := by
    intro v n hmem
    obtain ⟨w, -, hw⟩ := List.mem_map.mp (hperm.mem_iff.mp hmem)
    obtain ⟨rfl, rfl⟩ := Prod.mk.inj hw
    rfl
  rw [Lasso.layers_eq] at hlayer
  have hc : layer "c" = 2 := hlayer "c" 2 (by decide)
  refine ⟨hids, hc ▸ hheight "c" (by decide +kernel) Lasso.clear_c, layer, hperm, hc,
    hlayer "d" 3 (by decide), ?_, ?_⟩
  · refine (hstuck "e" (by decide +kernel) Lasso.not_clear_e).1 fun u hu => ?_
    obtain rfl : u = "d" := by simpa using Lasso.connects_iff.mp hu
    exact Lasso.not_clear_d
  · exact (hstuck "d" (by decide +kernel) Lasso.not_clear_d).2
      ⟨"c", Lasso.connects_iff.mpr (by decide), Lasso.clear_c⟩

end CodeAtlas
