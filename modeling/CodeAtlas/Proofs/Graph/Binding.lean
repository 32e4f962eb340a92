import CodeAtlas.Graph.Components
import CodeAtlas.Proofs.Graph.DepthFirst

/-!
# Waiting nodes

An open node reaches all that wait since its entry, every waiting node reaches an open one before
it, and the nodes that wait no longer reach only one another.

* **`Traversal.Bound`**: all of these; entering, looking at and closing a node keep it.
-/

namespace CodeAtlas

open Relation

/-! ## Entries and low entries -/

namespace Binding

variable {b : Binding} {node x : String} {outer : List String} {n : ℕ}

theorem entry_enter : (b.enter node).entry x = if node = x then b.count else b.entry x := by
  simp [entry, enter, Std.HashMap.getD_insert]

theorem low_enter : (b.enter node).low x = if node = x then b.count else b.low x := by
  simp [low, enter, Std.HashMap.getD_insert]

theorem low_reachBack :
    (b.reachBack node n).low x = if node = x then min (b.low node) n else b.low x := by
  simp [low, reachBack, Std.HashMap.getD_insert]

theorem low_reachBack_le (b : Binding) (node : String) (n : ℕ) (x : String) :
    (b.reachBack node n).low x ≤ b.low x := by
  rw [low_reachBack]
  split_ifs with h
  · rw [h]
    exact min_le_left _ _
  · exact le_rfl

theorem low_handOver (h : node ∉ outer) : (b.handOver node outer).low node = b.low node := by
  cases outer with
  | nil => rfl
  | cons parent outer =>
    rw [handOver, low_reachBack, if_neg]
    rintro rfl
    exact h List.mem_cons_self

theorem low_handOver_le {parent : String} (h : parent ∈ outer.head?) :
    (b.handOver node outer).low parent ≤ b.low node := by
  cases outer with
  | nil => cases h
  | cons p outer =>
    obtain rfl : p = parent := Option.some.inj h
    rw [handOver, low_reachBack, if_pos rfl]
    exact min_le_right _ _

/-! ## Who waits since a node -/

/-- The waiting nodes stand in the order of their entries, newest first. -/
def Ordered (b : Binding) : Prop := b.waiting.Pairwise fun x y => b.entry y < b.entry x

theorem Ordered.nodup (h : b.Ordered) : b.waiting.Nodup :=
  List.Pairwise.imp (fun hlt e => absurd (e ▸ hlt) (lt_irrefl _)) h

/-- A falling list is cut at a member. -/
theorem cut_at {e : String → ℕ} {l : List String} (h : l.Pairwise fun x y => e y < e x)
    (hn : node ∈ l) :
    l.takeWhile (· ≠ node) ++ [node] = l.filter (fun x => e node ≤ e x) ∧
    (l.dropWhile (· ≠ node)).drop 1 = l.filter fun x => e x < e node := by
  induction l with
  | nil => exact absurd hn List.not_mem_nil
  | cons y ys ih =>
    obtain ⟨hy, hys⟩ := List.pairwise_cons.mp h
    by_cases e' : y = node
    · subst e'
      have hge : ys.filter (fun x => e y ≤ e x) = [] :=
        List.filter_eq_nil_iff.mpr fun x hx => by simpa using hy x hx
      have hlt : ys.filter (fun x => e x < e y) = ys :=
        List.filter_eq_self.mpr fun x hx => by simpa using hy x hx
      simp [hge, hlt]
    · have hn' : node ∈ ys := (List.mem_cons.mp hn).resolve_left (Ne.symm e')
      have hlt : e node < e y := hy node hn'
      obtain ⟨ht, hd⟩ := ih hys hn'
      rw [List.takeWhile_cons_of_pos (by simpa using e'),
        List.dropWhile_cons_of_pos (by simpa using e'),
        List.filter_cons_of_pos (by simpa using hlt.le),
        List.filter_cons_of_neg (by simpa using hlt.le), List.cons_append, ht, hd]
      exact ⟨rfl, rfl⟩

theorem Ordered.since_eq (h : b.Ordered) (hn : node ∈ b.waiting) :
    b.since node = b.waiting.filter fun x => b.entry node ≤ b.entry x :=
  (cut_at h hn).1

theorem Ordered.waiting_release (h : b.Ordered) (hn : node ∈ b.waiting) :
    (b.release node).waiting = b.waiting.filter fun x => b.entry x < b.entry node :=
  (cut_at h hn).2

theorem Ordered.mem_since (h : b.Ordered) (hn : node ∈ b.waiting) :
    x ∈ b.since node ↔ x ∈ b.waiting ∧ b.entry node ≤ b.entry x := by
  rw [h.since_eq hn, List.mem_filter, decide_eq_true_iff]

theorem Ordered.mem_waiting_release (h : b.Ordered) (hn : node ∈ b.waiting) :
    x ∈ (b.release node).waiting ↔ x ∈ b.waiting ∧ b.entry x < b.entry node := by
  rw [h.waiting_release hn, List.mem_filter, decide_eq_true_iff]

end Binding

namespace Traversal

abbrev ForComponents : Type := Traversal Binding

def Settled (ids : List String) (s : ForComponents) (x : String) : Prop :=
  x ∈ ids ∧ x ∉ s.fresh ∧ x ∉ s.notes.waiting

/-- The waiting nodes stand by their entries, the open ones among them. -/
structure Standing (ids : List String) (s : ForComponents) : Prop where
  entered : ∀ x ∈ s.notes.waiting, x ∈ ids ∧ x ∉ s.fresh
  below : ∀ x ∈ s.notes.waiting, s.notes.entry x < s.notes.count
  ordered : s.notes.Ordered
  opened : s.openNodes.Sublist s.notes.waiting

structure Reaching (next : String → List String) (s : ForComponents) : Prop where
  /-- An open node reaches all that wait since its entry. -/
  inward : ∀ p ∈ s.openNodes, ∀ x ∈ s.notes.waiting, s.notes.entry p ≤ s.notes.entry x →
    ReflTransGen (Follows next) p x
  /-- A waiting node reaches an open one that was entered no later. -/
  outward : ∀ x ∈ s.notes.waiting, ∃ p ∈ s.openNodes, s.notes.entry p ≤ s.notes.entry x ∧
    ReflTransGen (Follows next) x p

/-- What the low entries of the open nodes say. -/
structure LowEntries (next : String → List String) (s : ForComponents) : Prop where
  /-- A low entry is the entry of a waiting node that is reached. -/
  reached : ∀ p ∈ s.openNodes, s.notes.low p ≤ s.notes.entry p ∧
    ∃ z ∈ s.notes.waiting, s.notes.low p = s.notes.entry z ∧ ReflTransGen (Follows next) p z
  /-- Where a step leads that has been looked at is known since each open node before it. -/
  known : ∀ x ∈ s.notes.waiting, ∀ y ∈ s.notes.waiting, Follows next x y → Looked s.path x y →
    ∀ p ∈ s.openNodes, s.notes.entry p ≤ s.notes.entry x →
      ∃ q ∈ s.openNodes, s.notes.entry p ≤ s.notes.entry q ∧ s.notes.low q ≤ s.notes.entry y

/-- What holds of the waiting and of the settled nodes in every state of a search. -/
structure Bound (next : String → List String) (ids : List String) (s : ForComponents) : Prop
    extends Standing ids s, Reaching next s, LowEntries next s where
  settled : ∀ x y, Settled ids s x → Follows next x y → Settled ids s y

variable {next : String → List String} {ids roots roots' closed closed' : List String}
  {s s' : ForComponents} {node successor x y z : String} {rest : List String}
  {path : List (String × List String)}

theorem Bound.settled_of_reaches (h : Bound next ids s) (hx : Settled ids s x)
    (hxy : ReflTransGen (Follows next) x y) : Settled ids s y := by
  induction hxy with
  | refl => exact hx
  | tail _ hs ih => exact h.settled _ _ ih hs

theorem Standing.mem_waiting (h : Standing ids s) (hp : s.path = (node, rest) :: path) :
    node ∈ s.notes.waiting :=
  h.opened.subset (innermost_mem hp)

theorem Standing.outer_sublist (h : Standing ids s) (hp : s.path = (node, rest) :: path) :
    (nodesOn path).Sublist s.notes.waiting :=
  (List.sublist_cons_self node _).trans (openNodes_eq hp ▸ h.opened)

theorem Standing.entry_lt (h : Standing ids s) (hp : s.path = (node, rest) :: path)
    (hx : x ∈ nodesOn path) : s.notes.entry x < s.notes.entry node := by
  have ho : (node :: nodesOn path).Sublist s.notes.waiting := openNodes_eq hp ▸ h.opened
  exact (List.pairwise_cons.mp (List.Pairwise.sublist ho h.ordered)).1 x hx

theorem Standing.exists_parent (h : Standing ids s) (hp : s.path = (node, rest) :: path)
    (hx : x ∈ nodesOn path) :
    ∃ parent ∈ (nodesOn path).head?, s.notes.entry x ≤ s.notes.entry parent := by
  have ho := h.outer_sublist hp
  cases houter : nodesOn path with
  | nil => exact absurd (houter ▸ hx) List.not_mem_nil
  | cons parent outer =>
    rw [houter] at hx ho
    refine ⟨parent, rfl, ?_⟩
    rcases List.mem_cons.mp hx with rfl | hx
    · exact le_rfl
    · exact ((List.pairwise_cons.mp (List.Pairwise.sublist ho h.ordered)).1 x hx).le

/-! ## Entering a node -/

theorem entry_enter_self :
    (s.enter bindingVisitor next node).notes.entry node = s.notes.count :=
  Binding.entry_enter.trans (if_pos rfl)

theorem low_enter_self : (s.enter bindingVisitor next node).notes.low node = s.notes.count :=
  Binding.low_enter.trans (if_pos rfl)

theorem openNodes_enter :
    (s.enter bindingVisitor next node).openNodes = node :: s.openNodes := rfl

theorem waiting_enter :
    (s.enter bindingVisitor next node).notes.waiting = node :: s.notes.waiting := rfl

theorem Standing.entry_enter (h : Standing ids s) (hf : node ∈ s.fresh)
    (hx : x ∈ s.notes.waiting) :
    (s.enter bindingVisitor next node).notes.entry x = s.notes.entry x := by
  have hne : node ≠ x := fun e => (h.entered x hx).2 (e ▸ hf)
  exact Binding.entry_enter.trans (if_neg hne)

theorem Standing.entry_enter_open (h : Standing ids s) (hf : node ∈ s.fresh)
    (hx : x ∈ s.openNodes) :
    (s.enter bindingVisitor next node).notes.entry x = s.notes.entry x :=
  h.entry_enter hf (h.opened.subset hx)

theorem Standing.low_enter (h : Standing ids s) (hf : node ∈ s.fresh)
    (hx : x ∈ s.openNodes) : (s.enter bindingVisitor next node).notes.low x = s.notes.low x := by
  have hne : node ≠ x := fun e => (h.entered x (h.opened.subset hx)).2 (e ▸ hf)
  exact Binding.low_enter.trans (if_neg hne)

theorem Standing.enter (h : Standing ids s) (hids : node ∈ ids) (hf : node ∈ s.fresh) :
    Standing ids (s.enter bindingVisitor next node) := by
  refine ⟨?_, ?_, ?_, h.opened.cons_cons node⟩
  · refine List.forall_mem_cons.mpr ⟨⟨hids, fun hm => (mem_without.mp hm).2 rfl⟩, fun x hx => ?_⟩
    exact ⟨(h.entered x hx).1, fun hm => (h.entered x hx).2 (mem_without.mp hm).1⟩
  · refine List.forall_mem_cons.mpr ⟨?_, fun x hx => ?_⟩
    · rw [entry_enter_self]
      exact Nat.lt_succ_self _
    · rw [h.entry_enter hf hx]
      exact Nat.lt_succ_of_lt (h.below x hx)
  · refine List.pairwise_cons.mpr ⟨fun x hx => ?_, List.Pairwise.imp_of_mem ?_ h.ordered⟩
    · rw [h.entry_enter hf hx, entry_enter_self]
      exact h.below x hx
    · intro x y hx hy hlt
      rwa [h.entry_enter hf hx, h.entry_enter hf hy]

theorem Reaching.enter (hs : Standing ids s) (h : Reaching next s) (hf : node ∈ s.fresh)
    (hl : ∀ p ∈ s.openNodes, ReflTransGen (Follows next) p node) :
    Reaching next (s.enter bindingVisitor next node) := by
  constructor
  · rw [openNodes_enter, waiting_enter]
    refine List.forall_mem_cons.mpr ⟨List.forall_mem_cons.mpr ⟨fun _ => .refl, ?_⟩, fun p hp =>
      List.forall_mem_cons.mpr ⟨fun _ => hl p hp, ?_⟩⟩
    · -- no other node waits since the new one
      intro x hx hle
      rw [entry_enter_self, hs.entry_enter hf hx] at hle
      exact absurd (hs.below x hx) (not_lt_of_ge hle)
    · intro x hx hle
      rw [hs.entry_enter_open hf hp, hs.entry_enter hf hx] at hle
      exact h.inward p hp x hx hle
  · rw [openNodes_enter, waiting_enter]
    refine List.forall_mem_cons.mpr ⟨⟨node, List.mem_cons_self, le_rfl, .refl⟩, fun x hx => ?_⟩
    obtain ⟨p, hp, hle, hxp⟩ := h.outward x hx
    refine ⟨p, List.mem_cons_of_mem _ hp, ?_, hxp⟩
    rwa [hs.entry_enter_open hf hp, hs.entry_enter hf hx]

theorem LowEntries.enter (hs : Standing ids s) (h : LowEntries next s) (hf : node ∈ s.fresh) :
    LowEntries next (s.enter bindingVisitor next node) := by
  constructor
  · rw [openNodes_enter, waiting_enter]
    refine List.forall_mem_cons.mpr ⟨?_, fun p hp => ?_⟩
    · rw [low_enter_self, entry_enter_self]
      exact ⟨le_rfl, node, List.mem_cons_self, entry_enter_self.symm, .refl⟩
    · obtain ⟨hle, z, hz, he, hpz⟩ := h.reached p hp
      rw [hs.low_enter hf hp, hs.entry_enter_open hf hp]
      exact ⟨hle, z, List.mem_cons_of_mem _ hz, he.trans (hs.entry_enter hf hz).symm, hpz⟩
  · intro x hx y hy hxy hlook p hp hle
    rw [openNodes_enter, List.mem_cons] at hp
    rw [waiting_enter, List.mem_cons] at hx hy
    rcases hx with rfl | hx
    · -- no successor of the new node has been looked at
      exact absurd hxy (hlook (next x) List.mem_cons_self)
    rcases hp with rfl | hp
    · rw [entry_enter_self, hs.entry_enter hf hx] at hle
      exact absurd (hs.below x hx) (not_lt_of_ge hle)
    rcases hy with rfl | hy
    · refine ⟨p, List.mem_cons_of_mem _ hp, le_rfl, ?_⟩
      rw [hs.low_enter hf hp, entry_enter_self]
      exact (h.reached p hp).1.trans (hs.below p (hs.opened.subset hp)).le
    · rw [hs.entry_enter_open hf hp, hs.entry_enter hf hx] at hle
      obtain ⟨q, hq, hpq, hlow⟩ := h.known x hx y hy hxy hlook.tail p hp hle
      refine ⟨q, List.mem_cons_of_mem _ hq, ?_, ?_⟩
      · rwa [hs.entry_enter_open hf hp, hs.entry_enter_open hf hq]
      · rwa [hs.low_enter hf hq, hs.entry_enter hf hy]

theorem settled_enter (hf : node ∈ s.fresh) :
    Settled ids (s.enter bindingVisitor next node) x ↔ Settled ids s x := by
  have hfresh : (s.enter bindingVisitor next node).fresh = without s.fresh node := rfl
  rw [Settled, Settled, waiting_enter, hfresh, mem_without, List.mem_cons]
  constructor
  · rintro ⟨hx, hx₁, hx₂⟩
    exact ⟨hx, fun hm => hx₁ ⟨hm, fun e => hx₂ (Or.inl e)⟩, fun hm => hx₂ (Or.inr hm)⟩
  · rintro ⟨hx, hx₁, hx₂⟩
    refine ⟨hx, fun hm => hx₁ hm.1, fun hm => ?_⟩
    rcases hm with rfl | hm
    · exact hx₁ hf
    · exact hx₂ hm

theorem Bound.enter (h : Bound next ids s) (hids : node ∈ ids) (hf : node ∈ s.fresh)
    (hl : ∀ p ∈ s.openNodes, ReflTransGen (Follows next) p node) :
    Bound next ids (s.enter bindingVisitor next node) where
  toStanding := h.toStanding.enter hids hf
  toReaching := h.toReaching.enter h.toStanding hf hl
  toLowEntries := h.toLowEntries.enter h.toStanding hf
  settled x y hx hxy := (settled_enter hf).mpr (h.settled x y ((settled_enter hf).mp hx) hxy)

/-! ## Looking at a successor -/

theorem Bound.reachBack (h : Bound next ids s) (hz : z ∈ s.notes.waiting)
    (hr : ReflTransGen (Follows next) node z) :
    Bound next ids { s with notes := s.notes.reachBack node (s.notes.entry z) } := by
  refine ⟨⟨h.entered, h.below, h.ordered, h.opened⟩, ⟨h.inward, h.outward⟩, ⟨fun p hp => ?_, ?_⟩,
    h.settled⟩
  · refine ⟨(Binding.low_reachBack_le _ _ _ _).trans (h.reached p hp).1, ?_⟩
    by_cases hlow : node = p ∧ s.notes.entry z < s.notes.low node
    · obtain ⟨rfl, hlt⟩ := hlow
      exact ⟨z, hz, by rw [Binding.low_reachBack, if_pos rfl, min_eq_right hlt.le]; rfl, hr⟩
    · obtain ⟨-, z', hz', he, hpz'⟩ := h.reached p hp
      refine ⟨z', hz', Eq.trans ?_ he, hpz'⟩
      rw [Binding.low_reachBack]
      split_ifs with e
      · rw [← e, min_eq_left (not_lt.mp fun hlt => hlow ⟨e, hlt⟩)]
      · rfl
  · intro x hx y hy hxy hlook p hp hle
    obtain ⟨q, hq, hpq, hlow⟩ := h.known x hx y hy hxy hlook p hp hle
    exact ⟨q, hq, hpq, (Binding.low_reachBack_le _ _ _ _).trans hlow⟩

/-- A successor that waits is entered no earlier than the low entry. -/
theorem Bound.look (h : Bound next ids s) (hp : s.path = (node, successor :: rest) :: path)
    (hs : successor ∈ s.notes.waiting → s.notes.low node ≤ s.notes.entry successor) :
    Bound next ids ⟨s.fresh, (node, rest) :: path, s.notes⟩ := by
  have ho : (⟨s.fresh, (node, rest) :: path, s.notes⟩ : ForComponents).openNodes = s.openNodes :=
    (openNodes_eq hp).symm
  refine ⟨⟨h.entered, h.below, h.ordered, ho ▸ h.opened⟩, ⟨ho ▸ h.inward, ho ▸ h.outward⟩,
    ⟨ho ▸ h.reached, ?_⟩, h.settled⟩
  intro x hx y hy hxy hlook p hpo hle
  rw [ho] at hpo ⊢
  by_cases hnew : x = node ∧ y = successor
  · obtain ⟨rfl, rfl⟩ := hnew
    exact ⟨x, innermost_mem hp, hle, hs hy⟩
  · exact h.known x hx y hy hxy (hp ▸ hlook.of_look hnew) p hpo hle

/-! ## Closing a node -/

theorem Bound.handOver (h : Bound next ids s) (hp : s.path = (node, rest) :: path) :
    Bound next ids { s with notes := s.notes.handOver node (nodesOn path) } := by
  obtain ⟨-, z, hz, he, hnz⟩ := h.reached node (innermost_mem hp)
  cases houter : nodesOn path with
  | nil => exact h
  | cons parent outer =>
    have hmem : parent ∈ nodesOn path := houter ▸ List.mem_cons_self
    have hreach : ReflTransGen (Follows next) parent node :=
      h.inward parent (outer_mem hp hmem) node (h.mem_waiting hp) (h.entry_lt hp hmem).le
    rw [Binding.handOver, he]
    exact h.reachBack hz (hreach.trans hnz)

theorem Bound.exists_outer (h : Bound next ids s) (hp : s.path = (node, rest) :: path)
    (hlow : s.notes.low node ≠ s.notes.entry node) :
    ∃ q ∈ nodesOn path, ReflTransGen (Follows next) node q := by
  obtain ⟨hle, z, hz, he, hnz⟩ := h.reached node (innermost_mem hp)
  obtain ⟨q, hq, hqz, hzq⟩ := h.outward z hz
  rcases (mem_openNodes hp).mp hq with rfl | hq
  · exact absurd (le_antisymm hle (he ▸ hqz)) hlow
  · exact ⟨q, hq, hnz.trans hzq⟩

theorem Bound.leave (h : Bound next ids s) (hp : s.path = (node, []) :: path)
    (hlow : s.notes.low node ≠ s.notes.entry node)
    (hpar : ∀ parent ∈ (nodesOn path).head?, s.notes.low parent ≤ s.notes.low node) :
    Bound next ids ⟨s.fresh, path, s.notes⟩ := by
  refine ⟨⟨h.entered, h.below, h.ordered, h.outer_sublist hp⟩,
    ⟨fun p hpo => h.inward p (outer_mem hp hpo), ?_⟩,
    ⟨fun p hpo => h.reached p (outer_mem hp hpo), ?_⟩, h.settled⟩
  · intro x hx
    obtain ⟨p, hpo, hpx, hxp⟩ := h.outward x hx
    rcases (mem_openNodes hp).mp hpo with rfl | hpo
    · obtain ⟨q, hq, hnq⟩ := h.exists_outer hp hlow
      exact ⟨q, hq, (h.entry_lt hp hq).le.trans hpx, hxp.trans hnq⟩
    · exact ⟨p, hpo, hpx, hxp⟩
  · intro x hx y hy hxy hlook p hpo hle
    obtain ⟨q, hq, hpq, hqy⟩ :=
      h.known x hx y hy hxy (hp ▸ hlook.of_tail) p (outer_mem hp hpo) hle
    rcases (mem_openNodes hp).mp hq with rfl | hq
    · -- what the closed node knew, the node around it knows
      obtain ⟨parent, hparent, hle'⟩ := h.exists_parent hp hpo
      exact ⟨parent, List.mem_of_mem_head? hparent, hle', (hpar parent hparent).trans hqy⟩
    · exact ⟨q, hq, hpq, hqy⟩

theorem Standing.mem_release (h : Standing ids s) (hp : s.path = (node, rest) :: path) :
    x ∈ (s.notes.release node).waiting ↔
      x ∈ s.notes.waiting ∧ s.notes.entry x < s.notes.entry node :=
  h.ordered.mem_waiting_release (h.mem_waiting hp)

theorem Standing.mem_since (h : Standing ids s) (hp : s.path = (node, rest) :: path) :
    x ∈ s.notes.since node ↔ x ∈ s.notes.waiting ∧ s.notes.entry node ≤ s.notes.entry x :=
  h.ordered.mem_since (h.mem_waiting hp)

theorem Standing.release (h : Standing ids s) (hp : s.path = (node, rest) :: path) :
    Standing ids ⟨s.fresh, path, s.notes.release node⟩ := by
  have hwait := h.ordered.waiting_release (h.mem_waiting hp)
  refine ⟨fun x hx => h.entered x ((h.mem_release hp).mp hx).1,
    fun x hx => h.below x ((h.mem_release hp).mp hx).1, ?_, ?_⟩
  · unfold Binding.Ordered
    rw [hwait]
    exact List.Pairwise.sublist List.filter_sublist h.ordered
  · -- all open nodes but the innermost one are below it
    have hlt : (nodesOn path).filter (fun x => s.notes.entry x < s.notes.entry node) =
        nodesOn path :=
      List.filter_eq_self.mpr fun x hx => decide_eq_true (h.entry_lt hp hx)
    rw [openNodes, ← hlt, hwait]
    exact (h.outer_sublist hp).filter _

theorem Reaching.release (hs : Standing ids s) (h : Reaching next s)
    (hp : s.path = (node, rest) :: path) :
    Reaching next ⟨s.fresh, path, s.notes.release node⟩ := by
  refine ⟨fun p hpo x hx => h.inward p (outer_mem hp hpo) x ((hs.mem_release hp).mp hx).1,
    fun x hx => ?_⟩
  obtain ⟨hw, hlt⟩ := (hs.mem_release hp).mp hx
  obtain ⟨p, hpo, hpx, hxp⟩ := h.outward x hw
  rcases (mem_openNodes hp).mp hpo with rfl | hpo
  · exact absurd hlt (not_lt_of_ge hpx)
  · exact ⟨p, hpo, hpx, hxp⟩

theorem LowEntries.release (hs : Standing ids s) (h : LowEntries next s)
    (hp : s.path = (node, []) :: path) (hlow : s.notes.low node = s.notes.entry node) :
    LowEntries next ⟨s.fresh, path, s.notes.release node⟩ := by
  constructor
  · intro p hpo
    obtain ⟨hle, z, hz, he, hpz⟩ := h.reached p (outer_mem hp hpo)
    have hlt : s.notes.entry z < s.notes.entry node := (he ▸ hle).trans_lt (hs.entry_lt hp hpo)
    exact ⟨hle, z, (hs.mem_release hp).mpr ⟨hz, hlt⟩, he, hpz⟩
  · intro x hx y hy hxy hlook p hpo hle
    obtain ⟨hwx, -⟩ := (hs.mem_release hp).mp hx
    obtain ⟨hwy, hlt⟩ := (hs.mem_release hp).mp hy
    obtain ⟨q, hq, hpq, hqy⟩ :=
      h.known x hwx y hwy hxy (hp ▸ hlook.of_tail) p (outer_mem hp hpo) hle
    rcases (mem_openNodes hp).mp hq with rfl | hq
    · exact absurd hlt (not_lt_of_ge (hlow ▸ hqy))
    · exact ⟨q, hq, hpq, hqy⟩

theorem Standing.settled_release (h : Standing ids s) (hp : s.path = (node, rest) :: path) :
    Settled ids ⟨s.fresh, path, s.notes.release node⟩ x ↔
      Settled ids s x ∨ x ∈ s.notes.since node := by
  unfold Settled
  rw [h.mem_since hp, h.mem_release hp]
  constructor
  · rintro ⟨hx, hx₁, hx₂⟩
    by_cases hw : x ∈ s.notes.waiting
    · exact Or.inr ⟨hw, not_lt.mp fun hlt => hx₂ ⟨hw, hlt⟩⟩
    · exact Or.inl ⟨hx, hx₁, hw⟩
  · rintro (⟨hx, hx₁, hx₂⟩ | ⟨hw, hle⟩)
    · exact ⟨hx, hx₁, fun hm => hx₂ hm.1⟩
    · exact ⟨(h.entered x hw).1, (h.entered x hw).2, fun hm => absurd hm.2 (not_lt_of_ge hle)⟩

def Entered (next : String → List String) (s : ForComponents) : Prop :=
  ∀ x ∈ s.notes.waiting, ∀ y, Follows next x y → Looked s.path x y → y ∉ s.fresh

/-- No step from those since leads before a node that reaches back to itself only. -/
theorem Bound.follows_since (h : Bound next ids s) (hp : s.path = (node, []) :: path)
    (hlow : s.notes.low node = s.notes.entry node) (hx : x ∈ s.notes.since node)
    (hlook : Looked s.path x y) (hxy : Follows next x y) :
    y ∉ (s.notes.release node).waiting := by
  obtain ⟨hw, hle⟩ := (h.mem_since hp).mp hx
  intro hy
  obtain ⟨hwy, hlt⟩ := (h.mem_release hp).mp hy
  obtain ⟨q, hq, hnq, hqy⟩ := h.known x hw y hwy hxy hlook node (innermost_mem hp) hle
  rcases (mem_openNodes hp).mp hq with rfl | hq
  · exact absurd hlt (not_lt_of_ge (hlow ▸ hqy))
  · exact absurd (h.entry_lt hp hq) (not_lt_of_ge hnq)

/-- A node that reaches back to itself only is closed, and those since wait no longer. -/
theorem Bound.release (hids : ∀ a b, Follows next a b → b ∈ ids) (h : Bound next ids s)
    (he : Entered next s) (hp : s.path = (node, []) :: path)
    (hlow : s.notes.low node = s.notes.entry node) :
    Bound next ids ⟨s.fresh, path, s.notes.release node⟩ := by
  refine ⟨h.toStanding.release hp, h.toReaching.release h.toStanding hp,
    h.toLowEntries.release h.toStanding hp hlow, fun x y hx hxy => ?_⟩
  rcases (h.settled_release hp).mp hx with hx | hx
  · exact (h.settled_release hp).mpr (Or.inl (h.settled x y hx hxy))
  · -- a node since the closed one has no successor left to be looked at
    obtain ⟨hw, hle⟩ := (h.mem_since hp).mp hx
    have hlook : Looked s.path x y := by
      rw [hp]
      refine Looked.of_tail (looked_of_notMem fun hm => ?_)
      exact absurd (h.entry_lt hp hm) (not_lt_of_ge hle)
    exact ⟨hids x y hxy, he x hw y hxy hlook, h.follows_since hp hlow hx hlook hxy⟩

end Traversal

end CodeAtlas
