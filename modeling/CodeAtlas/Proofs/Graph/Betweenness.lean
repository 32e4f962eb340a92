import CodeAtlas.Graph.Statistics
import CodeAtlas.Proofs.Graph.ShortestPath
import CodeAtlas.Proofs.Number.Quotient
import CodeAtlas.Proofs.Number.Rational
import Mathlib.Algebra.BigOperators.Ring.Finset
import Mathlib.Algebra.Order.Field.Basic
import Mathlib.Combinatorics.Enumerative.DoubleCounting
import Mathlib.Data.List.Fold

/-!
# Betweenness counts shortest paths

Counted by nodes or by paths, the passages are the same. So the counts of all nodes add up to a
number that the distances give, whichever of the shortest paths is taken.

* **`Graph.Chooses.sum_card_pairsThrough`**: the sum of all counts, from the distances.
* **`Graph.betweenness_counts_shortest_paths`**: paths, counts, their sum and their range.
-/

namespace CodeAtlas

open Relation

/-! ## Between the ends of a path -/

/-- The path comes to the node between its ends. -/
def PassesThrough (path : List String) (v : String) : Prop :=
  v ∈ path ∧ path.head? ≠ some v ∧ path.getLast? ≠ some v

instance (path : List String) (v : String) : Decidable (PassesThrough path v) :=
  inferInstanceAs (Decidable (_ ∧ _ ∧ _))

/-- The number of steps of the shortest walks, zero if there is none. -/
noncomputable def distance (r : String → String → Prop) (a b : String) : ℕ :=
  sInf {k | Steps r k a b}

theorem IsDistance.distance_eq {r : String → String → Prop} {a b : String} {n : ℕ}
    (h : IsDistance r a b n) : distance r a b = n :=
  (show IsDistance r a b (distance r a b) from
    ⟨Nat.sInf_mem ⟨n, h.1⟩, fun _ hk => Nat.sInf_le hk⟩).unique h

section Paths

variable {path : List String} {v : String}

theorem path_cases (path : List String) :
    path = [] ∨ (∃ a, path = [a]) ∨ ∃ a between b, path = a :: (between ++ [b]) := by
  cases path with
  | nil => exact Or.inl rfl
  | cons a rest =>
    rcases List.eq_nil_or_concat' rest with rfl | ⟨between, b, rfl⟩
    · exact Or.inr (Or.inl ⟨a, rfl⟩)
    · exact Or.inr (Or.inr ⟨a, between, b, rfl⟩)

theorem interior_between (a b : String) (between : List String) :
    interior (a :: (between ++ [b])) = between := by
  rw [interior, List.drop_one, List.tail_cons, List.dropLast_concat]

theorem length_interior (path : List String) : (interior path).length = path.length - 2 := by
  rw [interior, List.length_dropLast, List.length_drop]
  omega

theorem nodup_interior (h : path.Nodup) : (interior path).Nodup :=
  h.sublist ((List.dropLast_sublist _).trans (List.drop_sublist _ _))

theorem mem_interior_iff (h : path.Nodup) : v ∈ interior path ↔ PassesThrough path v := by
  obtain rfl | ⟨a, rfl⟩ | ⟨a, between, b, rfl⟩ := path_cases path
  · simp [interior, PassesThrough]
  · simp [interior, PassesThrough, eq_comm]
  · rw [interior_between, PassesThrough, List.head?_cons, ← List.cons_append, List.getLast?_concat]
    obtain ⟨ha, hrest⟩ := List.nodup_cons.mp h
    have hb : b ∉ between := fun hmem =>
      (List.nodup_append.mp hrest).2.2 b hmem b (List.mem_singleton_self b) rfl
    constructor
    · intro hv
      refine ⟨by simp [hv], ?_, ?_⟩
      · rintro ⟨⟩
        exact ha (List.mem_append_left _ hv)
      · rintro ⟨⟩
        exact hb hv
    · rintro ⟨hv, hfirst, hlast⟩
      simp only [List.cons_append, List.mem_cons, List.mem_append, List.not_mem_nil, or_false] at hv
      rcases hv with rfl | hv | rfl
      · exact absurd rfl hfirst
      · exact hv
      · exact absurd rfl hlast

end Paths

/-- The pairs whose path passes through the node. -/
def pairsThrough (ids : List String) (path : String → String → List String) (v : String) :
    Finset (String × String) :=
  (ids.toFinset ×ˢ ids.toFinset).filter fun p => PassesThrough (path p.1 p.2) v

namespace Graph

variable {g : Graph} {s t v : String} {path : String → String → List String}

/-- A shortest path is taken from each node to each that it reaches, and none otherwise. -/
structure Chooses (g : Graph) (path : String → String → List String) : Prop where
  shortest : ∀ s t, g.Reaches s t → IsShortestPath g.DependsOn s t (path s t)
  empty : ∀ s t, ¬ g.Reaches s t → path s t = []

/-! ## The sum of all counts -/

theorem Chooses.card_between (h : g.Chooses path) (hst : g.Reaches s t) (hne : s ≠ t) :
    (g.ids.toFinset.filter (PassesThrough (path s t))).card = distance g.DependsOn s t - 1 := by
  have hpath := h.shortest s t hst
  have hset : g.ids.toFinset.filter (PassesThrough (path s t)) =
      (interior (path s t)).toFinset := by
    ext v
    rw [Finset.mem_filter, List.mem_toFinset, List.mem_toFinset, mem_interior_iff hpath.nodup]
    exact and_iff_right_of_imp fun hv => mem_ids_of_mem_path hpath hne hv.1
  rw [hset, List.toFinset_card_of_nodup (nodup_interior hpath.nodup), length_interior,
    hpath.isDistance.distance_eq]
  omega

theorem Chooses.card_between_eq_zero (h : g.Chooses path) (hst : ¬ (g.Reaches s t ∧ t ≠ s)) :
    (g.ids.toFinset.filter (PassesThrough (path s t))).card = 0 := by
  rw [Finset.card_eq_zero, Finset.filter_eq_empty_iff]
  rintro v - ⟨hv, hfirst, -⟩
  by_cases hreach : g.Reaches s t
  · obtain rfl : t = s := not_not.mp fun hne => hst ⟨hreach, hne⟩
    have hpath := h.shortest t t hreach
    -- the shortest path from a node to itself has no step
    have hone : (path t t).length ≤ 1 := hpath.least [t] (.singleton t) rfl rfl
    obtain ⟨a, rest, hrest⟩ := List.exists_cons_of_ne_nil (List.ne_nil_of_mem hv)
    rw [hrest] at hone hv hfirst
    obtain rfl : rest = [] := List.length_eq_zero_iff.mp (by simpa using hone)
    exact hfirst (by rw [List.mem_singleton.mp hv]; rfl)
  · rw [h.empty s t hreach] at hv
    exact List.not_mem_nil hv

open Classical in
/-- Counted by nodes or by paths, there are as many nodes between the pairs. -/
theorem Chooses.sum_card_pairsThrough (h : g.Chooses path) :
    ∑ v ∈ g.ids.toFinset, (pairsThrough g.ids path v).card =
      ∑ s ∈ g.ids.toFinset, ∑ t ∈ g.ids.toFinset with g.Reaches s t ∧ t ≠ s,
        (distance g.DependsOn s t - 1) := by
  calc ∑ v ∈ g.ids.toFinset, (pairsThrough g.ids path v).card
      = ∑ p ∈ g.ids.toFinset ×ˢ g.ids.toFinset,
          (g.ids.toFinset.filter (PassesThrough (path p.1 p.2))).card :=
        Finset.sum_card_bipartiteAbove_eq_sum_card_bipartiteBelow
          fun (v : String) (p : String × String) => PassesThrough (path p.1 p.2) v
    _ = ∑ s ∈ g.ids.toFinset, ∑ t ∈ g.ids.toFinset,
          (g.ids.toFinset.filter (PassesThrough (path s t))).card := Finset.sum_product _ _ _
    _ = _ := by
        refine Finset.sum_congr rfl fun s _ => ?_
        rw [Finset.sum_filter]
        refine Finset.sum_congr rfl fun t _ => ?_
        split_ifs with hst
        · exact h.card_between hst.1 (Ne.symm hst.2)
        · exact h.card_between_eq_zero hst

/-! ## The paths that are found -/

def pathTo (g : Graph) (s t : String) : List String := Table.getD (g.pathsFrom s) t []

theorem pathTo_of_mem {found : List String} (h : (t, found) ∈ g.pathsFrom s) :
    g.pathTo s t = found := by
  rw [pathTo, Table.getD, Table.get?_of_mem (g.nodup_keys_pathsFrom s) h, Option.getD_some]

theorem pathTo_of_not_reaches (h : ¬ g.Reaches s t) : g.pathTo s t = [] := by
  have hnone : Table.get? (g.pathsFrom s) t = none := by
    rw [Table.get?, Option.map_eq_none_iff, List.find?_eq_none]
    intro e he hkey
    exact h (mem_keys_pathsFrom.mp (List.mem_map.mpr ⟨e, he, beq_iff_eq.mp hkey⟩))
  rw [pathTo, Table.getD, hnone, Option.getD_none]

theorem chooses_pathTo (g : Graph) : g.Chooses g.pathTo where
  shortest s t h := by
    obtain ⟨⟨t, found⟩, hmem, rfl⟩ := List.mem_map.mp (mem_keys_pathsFrom.mpr h)
    rw [pathTo_of_mem hmem]
    exact isShortestPath_of_mem hmem
  empty _ _ := pathTo_of_not_reaches

def passing (g : Graph) (v : String) : ℕ := (pairsThrough g.ids g.pathTo v).card

def mostPassing (g : Graph) : ℕ := g.ids.toFinset.sup g.passing

theorem getD_occurrences (xs : List String) (x : String) :
    (occurrences xs).getD x 0 = xs.count x := by
  unfold occurrences
  induction xs using List.reverseRecOn with
  | nil => simp
  | append_singleton xs y ih =>
    rw [List.foldl_append, List.foldl_cons, List.foldl_nil, Std.HashMap.getD_insert,
      List.count_append, List.count_singleton]
    by_cases hxy : y = x
    · subst hxy
      rw [if_pos (beq_self_eq_true y), if_pos (beq_self_eq_true y), ih]
    · rw [if_neg (by simpa using hxy), if_neg (by simpa using hxy), ih, Nat.add_zero]

theorem count_passages_from (hs : s ∈ g.ids) (v : String) :
    ((g.pathsFrom s).flatMap fun e => interior e.2).count v =
      ∑ t ∈ g.ids.toFinset, if PassesThrough (g.pathTo s t) v then 1 else 0 := by
  have hcount : ∀ e ∈ g.pathsFrom s, (interior e.2).count v =
      if PassesThrough (g.pathTo s e.1) v then 1 else 0 := by
    rintro ⟨t, found⟩ he
    have hnodup := (isShortestPath_of_mem he).nodup
    rw [pathTo_of_mem he, (nodup_interior hnodup).count]
    exact if_congr (mem_interior_iff hnodup) rfl rfl
  have hsubset : ((g.pathsFrom s).map (·.1)).toFinset ⊆ g.ids.toFinset := by
    intro t ht
    rw [List.mem_toFinset] at ht ⊢
    rcases (mem_keys_pathsFrom.mp ht).eq_or_mem with rfl | hmem
    · exact hs
    · exact hmem.2
  calc ((g.pathsFrom s).flatMap fun e => interior e.2).count v
      = ((g.pathsFrom s).map fun e => if PassesThrough (g.pathTo s e.1) v then 1 else 0).sum := by
        rw [List.count_flatMap]
        exact congrArg List.sum (List.map_congr_left hcount)
    _ = ∑ t ∈ ((g.pathsFrom s).map (·.1)).toFinset,
          if PassesThrough (g.pathTo s t) v then 1 else 0 := by
        rw [List.sum_toFinset _ (g.nodup_keys_pathsFrom s), List.map_map]
        rfl
    _ = _ := by
        refine Finset.sum_subset hsubset fun t _ ht => if_neg fun hpass => ?_
        rw [List.mem_toFinset, mem_keys_pathsFrom] at ht
        rw [pathTo_of_not_reaches ht] at hpass
        exact List.not_mem_nil hpass.1

/-- **What is counted** is the number of pairs whose path passes through the node. -/
theorem passageCounts_eq (hids : g.ids.Nodup) :
    g.passageCounts = g.ids.map fun v => (v, g.passing v) := by
  have hcount : ∀ v, g.passages.count v = g.passing v := by
    intro v
    have hpassages : g.passages =
        g.ids.flatMap fun s => (g.pathsFrom s).flatMap fun e => interior e.2 := rfl
    calc g.passages.count v
        = (g.ids.map fun s => ∑ t ∈ g.ids.toFinset,
            if PassesThrough (g.pathTo s t) v then 1 else 0).sum := by
          rw [hpassages, List.count_flatMap]
          exact congrArg List.sum (List.map_congr_left fun s hs => count_passages_from hs v)
      _ = ∑ s ∈ g.ids.toFinset, ∑ t ∈ g.ids.toFinset,
            if PassesThrough (g.pathTo s t) v then 1 else 0 := (List.sum_toFinset _ hids).symm
      _ = g.passing v := by
          rw [passing, pairsThrough, Finset.card_filter, Finset.sum_product]
  simp only [passageCounts, eraseDups_eq_self hids, getD_occurrences, hcount]

/-! ## The scaled counts -/

theorem foldl_max_eq_sup (ids : List String) (f : String → ℕ) :
    (ids.map f).foldl max 0 = ids.toFinset.sup f := by
  have hsup : (ids.map f).foldr max 0 = (ids.map f).toFinset.sup id :=
    List.foldr_sup_eq_sup_toFinset _
  have himage : (ids.map f).toFinset = ids.toFinset.image f := by
    ext n
    simp
  rw [List.foldl_eq_foldr, hsup, himage, Finset.sup_image]
  rfl

theorem betweenness_eq {K : Type} [Arith K] (hids : g.ids.Nodup) :
    (g.betweenness : List (String × K)) = g.ids.map fun v =>
      (v, if g.mostPassing = 0 then Arith.int 0
        else Arith.nat (g.passing v) / Arith.nat g.mostPassing) := by
  have hmost : (g.passageCounts.map (·.2)).foldl max 0 = g.mostPassing := by
    rw [passageCounts_eq hids, List.map_map, mostPassing, ← foldl_max_eq_sup]
    rfl
  simp only [betweenness, hmost]
  rw [passageCounts_eq hids, List.map_map]
  rfl

theorem mostPassing_ne_zero_iff :
    g.mostPassing ≠ 0 ↔ ∃ s t k, IsDistance g.DependsOn s t k ∧ 2 ≤ k := by
  constructor
  · intro hmost
    obtain ⟨v, hv⟩ : ∃ v, g.passing v ≠ 0 := by
      by_contra! hzero
      exact hmost (Nat.le_zero.mp (Finset.sup_le fun v _ => (hzero v).le))
    obtain ⟨⟨s, t⟩, hp⟩ := Finset.card_pos.mp (Nat.pos_of_ne_zero hv)
    have hpass := (Finset.mem_filter.mp hp).2
    have hreach : g.Reaches s t := by
      by_contra hno
      rw [pathTo_of_not_reaches hno] at hpass
      exact List.not_mem_nil hpass.1
    have hpath := g.chooses_pathTo.shortest s t hreach
    have hinner : 0 < (interior (g.pathTo s t)).length :=
      List.length_pos_of_mem ((mem_interior_iff hpath.nodup).mpr hpass)
    rw [length_interior] at hinner
    exact ⟨s, t, _, hpath.isDistance, by omega⟩
  · rintro ⟨s, t, k, hk, htwo⟩
    have hreach : g.Reaches s t := hk.1.reflTransGen
    have hne : s ≠ t := by
      rintro rfl
      have hzero := isDistance_self.mp hk
      omega
    have hpath := g.chooses_pathTo.shortest s t hreach
    have hinner : 0 < (interior (g.pathTo s t)).length := by
      have hlen := hpath.isDistance.unique hk
      rw [length_interior]
      omega
    obtain ⟨v, hv⟩ := List.exists_mem_of_length_pos hinner
    have hpass := (mem_interior_iff hpath.nodup).mp hv
    have hpair : (s, t) ∈ pairsThrough g.ids g.pathTo v := by
      obtain ⟨hs, ht⟩ := hreach.eq_or_mem.resolve_left hne
      exact Finset.mem_filter.mpr ⟨Finset.mem_product.mpr ⟨List.mem_toFinset.mpr hs,
        List.mem_toFinset.mpr ht⟩, hpass⟩
    have hle : g.passing v ≤ g.mostPassing :=
      Finset.le_sup (List.mem_toFinset.mpr (mem_ids_of_mem_path hpath hne hpass.1))
    have hpos : 0 < g.passing v := Finset.card_pos.mpr ⟨_, hpair⟩
    omega

theorem exists_passing_eq_mostPassing (h : g.mostPassing ≠ 0) :
    ∃ v ∈ g.ids, g.passing v = g.mostPassing := by
  have hne : g.ids.toFinset.Nonempty := by
    rw [Finset.nonempty_iff_ne_empty]
    intro hempty
    exact h (by rw [mostPassing, hempty, Finset.sup_empty]; rfl)
  obtain ⟨v, hv, heq⟩ := Finset.exists_mem_eq_sup _ hne g.passing
  exact ⟨v, List.mem_toFinset.mp hv, heq.symm⟩

theorem mostPassing_le (g : Graph) : g.mostPassing ≤ g.ids.length * g.ids.length := by
  refine Finset.sup_le fun v _ => (Finset.card_filter_le _ _).trans ?_
  rw [Finset.card_product]
  exact Nat.mul_le_mul (List.toFinset_card_le _) (List.toFinset_card_le _)

section Values

variable {K : Type} [Arith K]

theorem forall_betweenness {P : K → Prop} (hids : g.ids.Nodup) (hzero : P (Arith.int 0))
    (hquotient : ∀ n, g.mostPassing ≠ 0 → n ≤ g.mostPassing →
      P (Arith.nat n / Arith.nat g.mostPassing)) :
    ∀ p ∈ (g.betweenness : List (String × K)), P p.2 := by
  intro p hp
  rw [betweenness_eq hids] at hp
  obtain ⟨v, hv, rfl⟩ := List.mem_map.mp hp
  dsimp only
  split_ifs with hmost
  · exact hzero
  · exact hquotient _ hmost (Finset.le_sup (List.mem_toFinset.mpr hv))

theorem exists_betweenness_iff {a : K} (hids : g.ids.Nodup) (hzero : Arith.int 0 ≠ a)
    (hself : g.mostPassing ≠ 0 → Arith.nat g.mostPassing / Arith.nat g.mostPassing = a) :
    (∃ p ∈ (g.betweenness : List (String × K)), p.2 = a) ↔
      ∃ s t k, IsDistance g.DependsOn s t k ∧ 2 ≤ k := by
  rw [← mostPassing_ne_zero_iff, betweenness_eq hids]
  constructor
  · rintro ⟨p, hp, hone⟩ hmost
    obtain ⟨v, -, rfl⟩ := List.mem_map.mp hp
    rw [if_pos hmost] at hone
    exact hzero hone
  · intro hmost
    obtain ⟨v, hv, heq⟩ := exists_passing_eq_mostPassing hmost
    refine ⟨_, List.mem_map_of_mem hv, ?_⟩
    rw [if_neg hmost, heq]
    exact hself hmost

end Values

open Classical in
/-- **Betweenness in a graph** with distinct ids. The value of a node is the number of pairs whose
shortest path found passes it, over the largest such number. The numbers add up as they would for
any other shortest paths. -/
theorem betweenness_counts_shortest_paths (g : Graph) (hids : g.ids.Nodup) :
    (∀ s, ((g.pathsFrom s).map (·.1)).Nodup ∧
      (∀ t, t ∈ (g.pathsFrom s).map (·.1) ↔ g.Reaches s t) ∧
      ∀ t path, (t, path) ∈ g.pathsFrom s →
        g.pathTo s t = path ∧ IsShortestPath g.DependsOn s t path) ∧
    (∀ (K : Type) [Arith K], (g.betweenness : List (String × K)) = g.ids.map fun v =>
      (v, if g.mostPassing = 0 then Arith.int 0
        else Arith.nat (g.passing v) / Arith.nat g.mostPassing)) ∧
    (∑ v ∈ g.ids.toFinset, g.passing v =
      ∑ s ∈ g.ids.toFinset, ∑ t ∈ g.ids.toFinset with g.Reaches s t ∧ t ≠ s,
        (distance g.DependsOn s t - 1)) ∧
    (∀ path, g.Chooses path →
      ∑ v ∈ g.ids.toFinset, (pairsThrough g.ids path v).card =
        ∑ v ∈ g.ids.toFinset, g.passing v) ∧
    ((∀ p ∈ (g.betweenness : List (String × ℚ)), 0 ≤ p.2 ∧ p.2 ≤ 1) ∧
      ((∃ p ∈ (g.betweenness : List (String × ℚ)), p.2 = 1) ↔
        ∃ s t k, IsDistance g.DependsOn s t k ∧ 2 ≤ k)) ∧
    (g.ids.length * g.ids.length < exactLimit →
      (∀ p ∈ (g.betweenness : List (String × Float)), 0 ≤ p.2 ∧ p.2 ≤ 1) ∧
      ((∃ p ∈ (g.betweenness : List (String × Float)), p.2 = 1) ↔
        ∃ s t k, IsDistance g.DependsOn s t k ∧ 2 ≤ k)) := by
  have hsum := g.chooses_pathTo.sum_card_pairsThrough
  refine ⟨fun s => ⟨g.nodup_keys_pathsFrom s, fun t => mem_keys_pathsFrom, fun t path h =>
    ⟨pathTo_of_mem h, isShortestPath_of_mem h⟩⟩, fun K _ => betweenness_eq hids, hsum,
    fun path hpath => hpath.sum_card_pairsThrough.trans hsum.symm, ⟨?_, ?_⟩, fun hfew => ?_⟩
  · refine forall_betweenness (P := fun x : ℚ => 0 ≤ x ∧ x ≤ 1) hids
      ⟨le_rfl, zero_le_one⟩ fun n _ hn => ?_
    rw [Arith.nat_rat, Arith.nat_rat]
    exact ⟨div_nonneg (Nat.cast_nonneg _) (Nat.cast_nonneg _),
      div_le_one_of_le₀ (Nat.cast_le.mpr hn) (Nat.cast_nonneg _)⟩
  · refine exists_betweenness_iff hids zero_ne_one fun hmost => ?_
    rw [Arith.nat_rat]
    exact div_self (Nat.cast_ne_zero.mpr hmost)
  · have hlt := g.mostPassing_le.trans_lt hfew
    refine ⟨?_, ?_⟩
    · refine forall_betweenness (P := fun x : Float => 0 ≤ x ∧ x ≤ 1) hids
        (by decide +kernel) fun n hmost hn => ?_
      exact nearestWhole_div_mem_unit hn (Nat.pos_of_ne_zero hmost) hlt
    · exact exists_betweenness_iff hids nearestWhole_zero_ne_one fun hmost =>
        nearestWhole_div_self (Nat.pos_of_ne_zero hmost) hlt

end Graph

namespace Diamond

/-- Two ways from `a` to `d`; that `a` contains `d` is no dependency. -/
def graph : Graph where
  nodes := ["a", "b", "c", "d"].map fun id => { id := id, kind := "file", name := id, path := id }
  edges := [.between "a" "d" "contains", .between "a" "b" "calls", .between "a" "c" "calls",
    .between "b" "d" "calls", .between "c" "d" "calls"]
  metadata := { generatedAt := "" }

theorem dependsOn_iff {u v : String} :
    graph.DependsOn u v ↔ (u, v) ∈ [("a", "b"), ("a", "c"), ("b", "d"), ("c", "d")] := by
  have hdependencies : graph.dependencies = [("a", "b"), ("a", "c"), ("b", "d"), ("c", "d")] := by
    decide +kernel
  rw [← hdependencies, Graph.mem_dependencies]

theorem isDistance_two : IsDistance graph.DependsOn "a" "d" 2 := by
  have hab : graph.DependsOn "a" "b" := dependsOn_iff.mpr (by decide)
  have hbd : graph.DependsOn "b" "d" := dependsOn_iff.mpr (by decide)
  refine ⟨Steps.step hab (Steps.step hbd (Steps.stay "d")), fun k hk => ?_⟩
  generalize ht : "d" = t at hk
  cases hk with
  | stay => exact absurd ht (by decide)
  | step h rest =>
    cases rest with
    | stay =>
      rw [← ht] at h
      exact absurd (dependsOn_iff.mp h) (by decide)
    | step => omega

end Diamond

/-- One of the two ways is found, and the node on it is the one between others. -/
theorem Graph.betweenness_diamond :
    Diamond.graph.ids.Nodup ∧
    (∃ path, ("d", path) ∈ Diamond.graph.pathsFrom "a" ∧
      IsShortestPath Diamond.graph.DependsOn "a" "d" path ∧ path.length = 3) ∧
    (∃ p ∈ (Diamond.graph.betweenness : List (String × ℚ)), p.2 = 1) ∧
    ∃ p ∈ (Diamond.graph.betweenness : List (String × Float)), p.2 = 1 := by
  have hids : Diamond.graph.ids.Nodup := by decide +kernel
  obtain ⟨hpaths, -, -, -, ⟨-, hone⟩, hfloat⟩ :=
    betweenness_counts_shortest_paths Diamond.graph hids
  obtain ⟨-, hkeys, hshortest⟩ := hpaths "a"
  have hreach : Diamond.graph.Reaches "a" "d" := Diamond.isDistance_two.1.reflTransGen
  obtain ⟨⟨_, path⟩, hmem, rfl⟩ := List.mem_map.mp ((hkeys "d").mpr hreach)
  have hpath := (hshortest "d" path hmem).2
  have hlength := hpath.isDistance.unique Diamond.isDistance_two
  have hfar : ∃ s t k, IsDistance Diamond.graph.DependsOn s t k ∧ 2 ≤ k :=
    ⟨"a", "d", 2, Diamond.isDistance_two, le_rfl⟩
  exact ⟨hids, ⟨path, hmem, hpath, by omega⟩, hone.mpr hfar,
    (hfloat (by decide +kernel)).2.mpr hfar⟩

end CodeAtlas
