import CodeAtlas.Graph.Basic
import CodeAtlas.Proofs.Table
import Mathlib.Data.List.Induction
import Mathlib.Logic.Relation
import Mathlib.Order.Bounds.Basic
import Mathlib.Order.Lattice.Nat

/-!
# The dependency relation

An edge that is no containment, between two nodes of the graph, is one step of dependency. The
indices list this relation, each target once and in the order of the edges.

* `isGreatest_foldl_max`: keeping the larger value finds the greatest one of a list.
* **`Graph.mem_ahead`**, **`Graph.mem_behind`**: the two indices of a graph list one relation.
-/

namespace CodeAtlas

open Relation

/-! ## The greatest of listed values -/

variable {α : Type} {xs : List String} (pairs : List (String × String)) {x y : String}

theorem isGreatest_foldl_max [LinearOrder α] (xs : List α) (start : α) :
    IsGreatest {x | x ∈ start :: xs} (xs.foldl max start) := by
  induction xs generalizing start with
  | nil => exact ⟨List.mem_singleton_self start, fun x hx => (List.mem_singleton.mp hx).le⟩
  | cons x xs ih =>
    obtain ⟨hmem, hall⟩ := ih (max start x)
    have hstart : max start x ≤ xs.foldl max (max start x) := hall List.mem_cons_self
    refine ⟨?_, fun y hy => ?_⟩
    · rcases List.mem_cons.mp hmem with hmem | hmem
      · rcases max_choice start x with hmax | hmax
        · exact List.mem_cons.mpr (Or.inl (hmem.trans hmax))
        · exact List.mem_cons_of_mem _ (List.mem_cons.mpr (Or.inl (hmem.trans hmax)))
      · exact List.mem_cons_of_mem _ (List.mem_cons_of_mem _ hmem)
    · rcases List.mem_cons.mp hy with rfl | hy
      · exact (le_max_left _ _).trans hstart
      · rcases List.mem_cons.mp hy with rfl | hy
        · exact (le_max_right _ _).trans hstart
        · exact hall (List.mem_cons_of_mem _ hy)

/-! ## Lists without repetition -/

theorem mem_without : y ∈ without xs x ↔ y ∈ xs ∧ y ≠ x := by
  simp [without]

theorem eraseDups_concat (xs : List String) (x : String) :
    (xs ++ [x]).eraseDups = addOnce xs.eraseDups x := by
  rw [List.eraseDups_append, addOnce]
  by_cases h : x ∈ xs
  · have h' : x ∈ xs.eraseDups := List.mem_eraseDups.mpr h
    simp [List.removeAll, h, h']
  · have h' : x ∉ xs.eraseDups := fun hx => h (List.mem_eraseDups.mp hx)
    simp [List.removeAll, h, h', List.eraseDups_cons]

theorem mem_addOnce : y ∈ addOnce xs x ↔ y ∈ xs ∨ y = x := by
  unfold addOnce
  split_ifs with hx
  · exact ⟨Or.inl, fun hy => hy.elim (·) fun hy => hy ▸ hx⟩
  · rw [List.mem_append, List.mem_singleton]

theorem nodup_addOnce (h : xs.Nodup) (x : String) : (addOnce xs x).Nodup := by
  unfold addOnce
  split_ifs with hx
  · exact h
  · rw [List.nodup_append]
    refine ⟨h, List.nodup_singleton x, fun a ha b hb e => hx ?_⟩
    rwa [← List.mem_singleton.mp hb, ← e]

theorem nodup_eraseDups {α : Type} [BEq α] [LawfulBEq α] (xs : List α) : xs.eraseDups.Nodup := by
  match xs with
  | [] => exact List.nodup_nil
  | x :: xs =>
    rw [List.eraseDups_cons, List.nodup_cons, List.mem_eraseDups]
    exact ⟨by simp, nodup_eraseDups _⟩
termination_by xs.length
decreasing_by exact Nat.lt_succ_of_le (List.length_filter_le _ _)

theorem eraseDups_eq_self (h : xs.Nodup) : xs.eraseDups = xs := by
  induction xs using List.reverseRecOn with
  | nil => rfl
  | append_singleton xs x ih =>
    have hx : x ∉ xs := fun hx =>
      (List.nodup_append.mp h).2.2 x hx x (List.mem_singleton_self x) rfl
    rw [eraseDups_concat, ih h.of_append_left, addOnce, if_neg hx]

theorem Table.keys_put (t : Table String α) (key : String) (value : α) :
    (t.put key value).keys = addOnce t.keys key := by
  unfold put
  by_cases h : key ∈ t.keys
  · rw [if_pos (has_iff.mpr h), addOnce, if_pos h, keys, keys, List.map_map]
    refine List.map_congr_left fun entry _ => ?_
    by_cases he : entry.1 = key <;> simp [he]
  · rw [if_neg fun hn => h (has_iff.mp hn), addOnce, if_neg h, keys, keys, List.map_append,
      List.map_singleton]

theorem Table.keys_keep (t : Table String α) (key : String) (value : α) :
    (t.keep key value).keys = addOnce t.keys key := by
  rw [keep_eq]
  split_ifs with h
  · rw [addOnce, if_pos (has_iff.mp h)]
  · exact keys_put t key value

/-! ## The index of a list of pairs -/

theorem mem_targetsIn {pairs : List (String × String)} {a b : String} :
    b ∈ targetsIn pairs a ↔ (a, b) ∈ pairs := by
  rw [targetsIn, List.mem_eraseDups, List.mem_map]
  constructor
  · rintro ⟨⟨x, y⟩, hxy, rfl⟩
    rw [List.mem_filter, beq_iff_eq] at hxy
    obtain ⟨hmem, rfl⟩ := hxy
    exact hmem
  · intro h
    exact ⟨(a, b), by simpa using h, rfl⟩

theorem nodup_targetsIn (a : String) : (targetsIn pairs a).Nodup :=
  nodup_eraseDups _

theorem targetsIn_concat (p : String × String) (a : String) :
    targetsIn (pairs ++ [p]) a =
      if p.1 = a then addOnce (targetsIn pairs a) p.2 else targetsIn pairs a := by
  unfold targetsIn
  rw [List.filter_append, List.map_append]
  split_ifs with h
  · rw [← eraseDups_concat]
    simp [h]
  · simp [h]

namespace Links

theorem targets_add (links : Links) (p : String × String) (a : String) :
    (links.add p).targets a =
      if p.1 = a then addOnce (links.targets a) p.2 else links.targets a := by
  simp only [targets, add, Std.HashMap.getD_insert, beq_iff_eq]
  split_ifs with h
  · rw [h]
  · rfl

/-- The index of pairs lists what the pairs list. -/
theorem targets_ofPairs (pairs : List (String × String)) (a : String) :
    (ofPairs pairs).targets a = targetsIn pairs a := by
  unfold ofPairs
  induction pairs using List.reverseRecOn with
  | nil => simp [targets, empty, targetsIn]
  | append_singleton pairs p ih =>
    rw [List.foldl_append, List.foldl_cons, List.foldl_nil, targets_add, targetsIn_concat, ih]

end Links

/-! ## The relation of a graph -/

namespace Graph

variable {g : Graph} {a b : String}

/-- An edge that is no containment, between two nodes of the graph. -/
def DependsOn (g : Graph) (a b : String) : Prop :=
  a ∈ g.ids ∧ b ∈ g.ids ∧ ∃ e ∈ g.edges, e.kind ≠ containment ∧ e.source = a ∧ e.target = b

def Reaches (g : Graph) : String → String → Prop := ReflTransGen g.DependsOn

theorem DependsOn.source_mem (h : g.DependsOn a b) : a ∈ g.ids := h.1

theorem DependsOn.target_mem (h : g.DependsOn a b) : b ∈ g.ids := h.2.1

theorem mem_dependencies : (a, b) ∈ g.dependencies ↔ g.DependsOn a b := by
  simp only [dependencies, DependsOn, holds, List.mem_map, List.mem_filter, Bool.and_eq_true,
    List.contains_iff_mem, bne_iff_ne, Prod.mk.injEq]
  constructor
  · rintro ⟨e, ⟨⟨he, hs, ht⟩, hk⟩, rfl, rfl⟩
    exact ⟨hs, ht, e, he, hk, rfl, rfl⟩
  · rintro ⟨hs, ht, e, he, hk, rfl, rfl⟩
    exact ⟨e, ⟨⟨he, hs, ht⟩, hk⟩, rfl, rfl⟩

def Connects (g : Graph) (a b : String) : Prop :=
  a ∈ g.ids ∧ b ∈ g.ids ∧ ∃ e ∈ g.edges, e.source = a ∧ e.target = b

theorem mem_connections : (a, b) ∈ g.connections ↔ g.Connects a b := by
  simp only [connections, Connects, holds, List.mem_map, List.mem_filter, Bool.and_eq_true,
    List.contains_iff_mem, Prod.mk.injEq]
  constructor
  · rintro ⟨e, ⟨he, hs, ht⟩, rfl, rfl⟩
    exact ⟨hs, ht, e, he, rfl, rfl⟩
  · rintro ⟨hs, ht, e, he, rfl, rfl⟩
    exact ⟨e, ⟨he, hs, ht⟩, rfl, rfl⟩

/-- **The index ahead** lists what a node depends on. -/
theorem mem_ahead : b ∈ g.ahead.targets a ↔ g.DependsOn a b := by
  rw [ahead, Links.targets_ofPairs, mem_targetsIn, mem_dependencies]

/-- **The index behind** lists what depends on a node. -/
theorem mem_behind : a ∈ g.behind.targets b ↔ g.DependsOn a b := by
  rw [behind, Links.targets_ofPairs, mem_targetsIn, ← mem_dependencies, List.mem_map]
  constructor
  · rintro ⟨⟨x, y⟩, hxy, e⟩
    obtain ⟨rfl, rfl⟩ := Prod.mk.inj e
    exact hxy
  · intro h
    exact ⟨(a, b), h, rfl⟩

theorem nodup_ahead (g : Graph) (a : String) : (g.ahead.targets a).Nodup := by
  rw [ahead, Links.targets_ofPairs]
  exact nodup_targetsIn _ a

theorem nodup_behind (g : Graph) (a : String) : (g.behind.targets a).Nodup := by
  rw [behind, Links.targets_ofPairs]
  exact nodup_targetsIn _ a

theorem Reaches.eq_or_mem (h : g.Reaches a b) : a = b ∨ a ∈ g.ids ∧ b ∈ g.ids := by
  rcases reflTransGen_iff_eq_or_transGen.mp h with rfl | h
  · exact Or.inl rfl
  · obtain ⟨_, hab, _⟩ := TransGen.head'_iff.mp h
    obtain ⟨_, _, hcb⟩ := TransGen.tail'_iff.mp h
    exact Or.inr ⟨hab.source_mem, hcb.target_mem⟩

end Graph

end CodeAtlas
