import CodeAtlas.Proofs.Layout.LongestPath
import CodeAtlas.Proofs.Layout.Rows
import Mathlib.Data.Rat.Defs

/-!
# Sweeps without effect

Without a cycle every edge points to a lower row, so nothing above is pointed to, all means are zero
and each row keeps the order in which its nodes are listed.

* **`Graph.rows_in_listed_order`**: the rows of a graph without cycles, and when these are ordered.
* **`Crossing.rows_not_ordered`**: two edges that cross and need not.
-/

namespace CodeAtlas

open Relation

/-! ## Rows that point to nothing above -/

section Sweeps

variable {K : Type} [Arith K] {next : String → List String} {above row targets : List String}

theorem barycenter_eq_zero (h : ∀ t ∈ targets, t ∉ above) :
    (barycenter targets above : K) = Arith.int 0 := by
  have hnone : targets.filterMap (placeIn? above) = [] :=
    List.filterMap_eq_nil_iff.mpr fun t ht => placeIn?_eq_none (h t ht)
  rw [barycenter, hnone]
  rfl

theorem orderRow_eq_self (hzero : (Arith.int 0 : K) ≤ Arith.int 0)
    (h : ∀ id ∈ row, ∀ t ∈ next id, t ∉ above) : orderRow K next above row = row := by
  have hkeys : ∀ entry ∈ row.map (fun id => (id, (barycenter (next id) above : K))),
      entry.2 = Arith.int 0 := by
    intro entry hentry
    obtain ⟨id, hid, rfl⟩ := List.mem_map.mp hentry
    exact barycenter_eq_zero (h id hid)
  rw [orderRow, List.mergeSort_of_pairwise, List.map_map]
  · exact List.map_id row
  · refine List.pairwise_of_forall_mem_list fun a ha b hb => ?_
    rw [hkeys a ha, hkeys b hb]
    exact decide_eq_true hzero

/-- No node of the second row points into the first. -/
def PointsAway (next : String → List String) (above row : List String) : Prop :=
  ∀ id ∈ row, ∀ t ∈ next id, t ∉ above

theorem sweepBelow_eq_self (hzero : (Arith.int 0 : K) ≤ Arith.int 0) {rows : List (List String)}
    (h : (above :: rows).IsChain (PointsAway next)) : sweepBelow K next above rows = rows := by
  induction rows generalizing above with
  | nil => rfl
  | cons row rows ih =>
    obtain ⟨hrow, hrows⟩ := List.isChain_cons_cons.mp h
    rw [sweepBelow, orderRow_eq_self hzero hrow, ih hrows]

/-- **A sweep** over rows none of which points into the row above changes nothing. -/
theorem sweep_eq_self (hzero : (Arith.int 0 : K) ≤ Arith.int 0) {rows : List (List String)}
    (h : rows.IsChain (PointsAway next)) : sweep K next rows = rows := by
  cases rows with
  | nil => rfl
  | cons row rows => rw [sweep, sweepBelow_eq_self hzero h]

end Sweeps

/-! ## Rows of a graph without cycles -/

namespace Graph

variable {g : Graph} {u v : String} {k : ℕ}

/-- **Without cycles** every edge points to a lower row. -/
theorem layerOf_lt (hids : g.ids.Nodup) (hacyclic : Acyclic g.Connects) (h : g.Connects u v) :
    g.layerOf u < g.layerOf v := by
  have hpairs : ∀ p ∈ g.connections, p.1 ∈ g.ids ∧ p.2 ∈ g.ids := by
    rintro ⟨a, b⟩ hp
    obtain ⟨ha, hb, -⟩ := mem_connections.mp hp
    exact ⟨ha, hb⟩
  obtain ⟨layer, done, hranked, hperm⟩ := layersOf_perm hids hpairs
  have hrelation : (fun a b => (a, b) ∈ g.connections) = g.Connects := by
    funext a b
    exact propext mem_connections
  rw [hrelation] at hranked
  have hkeys : (layersOf g.connections g.ids).keys.Nodup := by
    have hmap := hperm.map Prod.fst
    rw [List.map_map] at hmap
    exact hmap.nodup_iff.mpr (by simpa [Function.comp_def] using hids)
  have hlayer : ∀ w ∈ g.ids, g.layerOf w = layer w := by
    intro w hw
    have hmem : (w, layer w) ∈ layersOf g.connections g.ids :=
      hperm.mem_iff.mpr (List.mem_map_of_mem hw)
    rw [layerOf, layers, Table.getD, Table.get?_of_mem hkeys hmem, Option.getD_some]
  rw [hlayer u h.1, hlayer v h.2.1]
  exact hranked.falls u v h (hranked.mem_done_iff.mpr ⟨h.1, clear_of_acyclic hacyclic u⟩)

def members (g : Graph) (k : ℕ) : List String := g.ids.filter fun v => g.layerOf v == k

theorem getElem?_layerRows_of_mem (hv : v ∈ g.ids) (hk : k ≤ g.layerOf v) :
    (layerRows g.layers g.ids)[k]? = some (g.members k) := by
  have hle := (isGreatest_foldl_max (g.ids.map fun w => g.layers.getD w 0) 0).2
    (List.mem_cons_of_mem _ (List.mem_map_of_mem hv))
  rw [layerRows, List.getElem?_map, List.getElem?_range (Nat.lt_succ_of_le (hk.trans hle))]
  rfl

theorem rows_eq_layerRows {K : Type} [Arith K] (hzero : (Arith.int 0 : K) ≤ Arith.int 0)
    (hids : g.ids.Nodup) (hacyclic : Acyclic g.Connects) :
    g.rows K = layerRows g.layers g.ids := by
  have hchain : (layerRows g.layers g.ids).IsChain
      (PointsAway fun id => (g.connections.filter (·.1 == id)).map (·.2)) := by
    refine List.isChain_iff_getElem.mpr fun i hi v hv t ht habove => ?_
    rw [getElem?_layerRows (List.getElem?_eq_getElem hi)] at hv
    rw [getElem?_layerRows (List.getElem?_eq_getElem (Nat.lt_of_succ_lt hi))] at habove
    obtain ⟨⟨u, w⟩, hmem, rfl⟩ := List.mem_map.mp ht
    obtain ⟨hpair, hu⟩ := List.mem_filter.mp hmem
    obtain rfl : u = v := beq_iff_eq.mp hu
    have hlt := layerOf_lt hids hacyclic (mem_connections.mp hpair)
    have hrow : g.layerOf u = i + 1 := beq_iff_eq.mp (List.mem_filter.mp hv).2
    have hrow' : g.layerOf w = i := beq_iff_eq.mp (List.mem_filter.mp habove).2
    omega
  rw [rows]
  simp only [sweep_eq_self hzero hchain]

/-! ## Rows ordered by edges in either direction -/

def joins (g : Graph) (u v : String) : Bool :=
  g.connections.contains (u, v) || g.connections.contains (v, u)

/-- The mean place of the nodes of a row joined to a node, zero if there is none. -/
def meanPlace (g : Graph) (row : List String) (v : String) : ℚ :=
  let places := (List.range row.length).filter fun i => row[i]?.any (g.joins v)
  if places.isEmpty then 0 else (places.foldr (· + ·) 0 : ℕ) / places.length

/-- Every row is ordered by the mean places above of the nodes joined to its nodes. -/
def OrderedByNeighbours (g : Graph) (rows : List (List String)) : Prop :=
  ∀ (k : ℕ) (above row : List String), rows[k]? = some above → rows[k + 1]? = some row →
    row.Pairwise fun u v => g.meanPlace above u ≤ g.meanPlace above v

theorem orderedByNeighbours_layerRows_iff :
    g.OrderedByNeighbours (layerRows g.layers g.ids) ↔
      g.ids.Pairwise fun u v => ∀ k, g.layerOf u = k + 1 → g.layerOf v = k + 1 →
        g.meanPlace (g.members k) u ≤ g.meanPlace (g.members k) v := by
  constructor
  · intro h
    refine List.pairwise_iff_forall_sublist.mpr fun {u v} hsub k hu hv => ?_
    have hmem : u ∈ g.ids := hsub.subset List.mem_cons_self
    have hrow := h k _ _ (getElem?_layerRows_of_mem hmem (by omega))
      (getElem?_layerRows_of_mem hmem hu.ge)
    refine List.pairwise_iff_forall_sublist.mp hrow ?_
    have hfilter := hsub.filter fun w => g.layerOf w == k + 1
    simpa [members, hu, hv] using hfilter
  · intro h k above row habove hrow
    obtain rfl := getElem?_layerRows habove
    obtain rfl := getElem?_layerRows hrow
    rw [List.pairwise_filter]
    exact h.imp fun huv hu hv => huv k (beq_iff_eq.mp hu) (beq_iff_eq.mp hv)

/-- **The rows of a graph without cycles** are the layers as they are listed. So they are ordered by
the mean places of neighbours just if the nodes are listed in such an order. -/
theorem rows_in_listed_order (g : Graph) (hids : g.ids.Nodup) (hacyclic : Acyclic g.Connects) :
    g.rows Computed = layerRows g.layers g.ids ∧
    (∀ (k : ℕ) (row : List String), (g.rows Computed)[k]? = some row → row = g.members k) ∧
    (∀ frame : Frame Computed, g.hierarchicalSpots frame =
      g.ids.map (spotInRows frame (layerRows g.layers g.ids))) ∧
    (g.OrderedByNeighbours (g.rows Computed) ↔
      g.ids.Pairwise fun u v => ∀ k, g.layerOf u = k + 1 → g.layerOf v = k + 1 →
        g.meanPlace (g.members k) u ≤ g.meanPlace (g.members k) v) := by
  have hrows : g.rows Computed = layerRows g.layers g.ids :=
    rows_eq_layerRows (by decide) hids hacyclic
  refine ⟨hrows, fun k row hrow => ?_, fun frame => ?_, ?_⟩
  · rw [hrows] at hrow
    exact getElem?_layerRows hrow
  · rw [hierarchicalSpots, lastSpots_of_nodup _ hids, hrows]
  · rw [hrows]
    exact orderedByNeighbours_layerRows_iff

end Graph

/-! ## Two edges that cross or not -/

namespace Crossing

def listed (ids : List String) : Graph where
  nodes := ids.map Lasso.node
  edges := [.between "b" "c" "imports", .between "a" "d" "imports"]
  metadata := { generatedAt := "" }

theorem acyclic (ids : List String) : Acyclic (listed ids).Connects := by
  have hstep : ∀ e ∈ (listed []).edges, e.source ∈ ["a", "b"] ∧ e.target ∉ ["a", "b"] := by decide
  intro v hcycle
  obtain ⟨w, ⟨-, -, e, he, hsource, -⟩, -⟩ := TransGen.head'_iff.mp hcycle
  obtain ⟨w', -, -, -, e', he', -, htarget⟩ := TransGen.tail'_iff.mp hcycle
  rw [← hsource] at htarget
  exact (hstep e' he').2 (htarget ▸ (hstep e he).1)

def uncrossed : Graph := listed ["a", "b", "d", "c"]

/-- The rows are ordered, since the list is. -/
theorem rows_ordered :
    uncrossed.ids.Nodup ∧ Acyclic uncrossed.Connects ∧
    uncrossed.rows Computed = [["a", "b"], ["d", "c"]] ∧
    uncrossed.OrderedByNeighbours (uncrossed.rows Computed) := by
  have hids : uncrossed.ids.Nodup := by decide +kernel
  obtain ⟨hrows, -, -, hordered⟩ := Graph.rows_in_listed_order uncrossed hids (acyclic _)
  refine ⟨hids, acyclic _, hrows.trans (by decide +kernel), hordered.mpr ?_⟩
  have hlayers : uncrossed.layerOf "a" = 0 ∧ uncrossed.layerOf "b" = 0 ∧
      uncrossed.layerOf "d" = 1 := by decide +kernel
  have hmeans : uncrossed.meanPlace (uncrossed.members 0) "d" ≤
      uncrossed.meanPlace (uncrossed.members 0) "c" := by decide +kernel
  obtain ⟨ha, hb, hd⟩ := hlayers
  change ["a", "b", "d", "c"].Pairwise _
  refine .cons (fun v _ k hu => ?_) (.cons (fun v _ k hu => ?_) (.cons (fun v hv k hu _ => ?_)
    (List.pairwise_singleton _ _)))
  · omega
  · omega
  · obtain rfl : k = 0 := by omega
    obtain rfl := List.mem_singleton.mp hv
    exact hmeans

def graph : Graph := listed ["a", "b", "c", "d"]

theorem nodup_ids : graph.ids.Nodup := by decide +kernel

theorem rows_eq : graph.rows Computed = [["a", "b"], ["c", "d"]] := by
  rw [Graph.rows_eq_layerRows (by decide) nodup_ids (acyclic _)]
  decide +kernel

/-- The node `c` is joined to the second node above it and `d` to the first, yet `c` is left of
`d`. -/
theorem rows_not_ordered :
    graph.ids.Nodup ∧ Acyclic graph.Connects ∧
    graph.rows Computed = [["a", "b"], ["c", "d"]] ∧
    graph.meanPlace ["a", "b"] "c" = 1 ∧ graph.meanPlace ["a", "b"] "d" = 0 ∧
    ¬ graph.OrderedByNeighbours (graph.rows Computed) ∧
    ((graph.laidOut .hierarchical .usual none).toOption.map fun placed =>
      placed.nodes.map fun n => (n.id, n.position.map fun p => (p.x.text, p.y.text))) =
      some [("a", some ("325.0", "50.0")), ("b", some ("875.0", "50.0")),
        ("c", some ("325.0", "750.0")), ("d", some ("875.0", "750.0"))] := by
  have hc : graph.meanPlace ["a", "b"] "c" = 1 := by decide +kernel
  have hd : graph.meanPlace ["a", "b"] "d" = 0 := by decide +kernel
  refine ⟨nodup_ids, acyclic _, rows_eq, hc, hd, fun hordered => ?_, ?_⟩
  · rw [rows_eq] at hordered
    have hle := List.rel_of_pairwise_cons (hordered 0 ["a", "b"] ["c", "d"] rfl rfl)
      (List.mem_singleton_self "d")
    rw [hc, hd] at hle
    exact absurd hle (by decide)
  · have hspots : graph.spots Amount.computed .hierarchical (Frame.usual.map Amount.computed) none =
        lastSpots (spotInRows (Frame.usual.map Amount.computed) [["a", "b"], ["c", "d"]])
          graph.ids := by
      rw [← rows_eq]
      rfl
    dsimp only [Graph.laidOut]
    rw [hspots]
    decide +kernel

end Crossing

end CodeAtlas
