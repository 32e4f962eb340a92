import CodeAtlas.Proofs.Layout.Placement
import Mathlib.Data.List.Perm.Basic

/-!
# The members of a row

A row holds the nodes of its layer, and a ring those of its number, each node once. The spot of a
node comes from its place in the one row that holds it.

* **`Graph.perm_of_getElem?_rows`**: the rows after the sweeps.
* **`Graph.exists_rowSpot`**: where the spot of a node comes from.
-/

namespace CodeAtlas

/-! ## Rows by number -/

section LayerRows

variable {numbers : Table String Nat} {ids row : List String} {k : Nat}

theorem getElem?_layerRows (h : (layerRows numbers ids)[k]? = some row) :
    row = ids.filter fun id => numbers.getD id 0 == k := by
  rw [layerRows, List.getElem?_map, Option.map_eq_some_iff] at h
  obtain ⟨layer, hlayer, rfl⟩ := h
  obtain ⟨hk, rfl⟩ := List.getElem?_eq_some_iff.mp hlayer
  rw [List.getElem_range]

theorem flatten_range_perm (f : String → Nat) (ids : List String) (n : Nat) :
    ((List.range n).map fun k => ids.filter fun id => f id == k).flatten.Perm
      (ids.filter fun id => decide (f id < n)) := by
  induction n with
  | zero => simp
  | succ n ih =>
    rw [List.range_succ, List.map_append, List.flatten_append, List.map_singleton,
      List.flatten_singleton]
    have hsplit := List.filter_append_perm (fun id => decide (f id < n))
      (ids.filter fun id => decide (f id < n + 1))
    have hbelow : (fun id => decide (f id < n) && decide (f id < n + 1)) =
        fun id => decide (f id < n) := by
      funext id
      by_cases hid : f id < n
      · simp [hid, Nat.lt_succ_of_lt hid]
      · simp [hid]
    have hlast : (fun id => !decide (f id < n) && decide (f id < n + 1)) = fun id => f id == n := by
      funext id
      rw [Bool.eq_iff_iff]
      simp only [Bool.and_eq_true, Bool.not_eq_true', decide_eq_false_iff_not, decide_eq_true_iff,
        beq_iff_eq]
      omega
    rw [List.filter_filter, List.filter_filter, hbelow, hlast] at hsplit
    exact (ih.append_right _).trans hsplit

/-- **The rows by number** hold every id as often as it is listed. -/
theorem flatten_layerRows_perm (numbers : Table String Nat) (ids : List String) :
    (layerRows numbers ids).flatten.Perm ids := by
  have hall : (ids.filter fun id => decide (numbers.getD id 0 <
      (ids.map fun i => numbers.getD i 0).foldl max 0 + 1)) = ids := by
    refine List.filter_eq_self.mpr fun id hid => ?_
    have hle := (isGreatest_foldl_max (ids.map fun i => numbers.getD i 0) 0).2
      (List.mem_cons_of_mem _ (List.mem_map_of_mem hid))
    exact decide_eq_true (Nat.lt_succ_of_le hle)
  have hperm := flatten_range_perm (fun id => numbers.getD id 0) ids
    ((ids.map fun i => numbers.getD i 0).foldl max 0 + 1)
  rw [hall] at hperm
  exact hperm

end LayerRows

/-! ## Rows after the sweeps -/

section Sweeps

theorem getElem?_of_forall₂ {rows rows' : List (List String)} {row : List String} {k : Nat}
    (h : List.Forall₂ List.Perm rows rows') (hrow : rows[k]? = some row) :
    ∃ row', rows'[k]? = some row' ∧ row.Perm row' := by
  induction h generalizing k with
  | nil => cases hrow
  | cons hperm _ ih =>
    cases k with
    | zero =>
      obtain rfl := Option.some.inj hrow
      exact ⟨_, rfl, hperm⟩
    | succ k => exact ih hrow

namespace Graph

variable {K : Type} [Arith K] {g : Graph} {row : List String} {k : Nat} {v : String}

def layerOf (g : Graph) (v : String) : Nat := g.layers.getD v 0

/-- **A row after the sweeps** holds the nodes of its layer. -/
theorem perm_of_getElem?_rows (h : (g.rows K)[k]? = some row) :
    row.Perm (g.ids.filter fun v => g.layerOf v == k) := by
  obtain ⟨row', hrow', hperm⟩ := getElem?_of_forall₂ (g.rows_perm K) h
  rw [getElem?_layerRows hrow'] at hperm
  exact hperm

theorem layerOf_of_mem (h : (g.rows K)[k]? = some row) (hv : v ∈ row) : g.layerOf v = k := by
  have hmem := (perm_of_getElem?_rows h).mem_iff.mp hv
  exact beq_iff_eq.mp (List.mem_filter.mp hmem).2

theorem flatten_rows_perm (K : Type) [Arith K] (g : Graph) : (g.rows K).flatten.Perm g.ids :=
  (List.Perm.flatten_congr (g.rows_perm K)).trans (flatten_layerRows_perm _ _)

end Graph

end Sweeps

/-! ## Places in rows -/

section Places

variable {row : List String} {id : String} {place : Nat}

theorem getElem?_of_placeIn? (h : placeIn? row id = some place) : row[place]? = some id := by
  obtain ⟨⟨id', place'⟩, hfound, rfl⟩ := Option.map_eq_some_iff.mp h
  have hkey := List.find?_some hfound
  obtain rfl : id' = id := beq_iff_eq.mp hkey
  exact List.mem_zipIdx_iff_getElem?.mp (List.mem_reverse.mp (List.mem_of_find?_eq_some hfound))

theorem placeIn?_eq_none (h : id ∉ row) : placeIn? row id = none := by
  cases hplace : placeIn? row id with
  | none => rfl
  | some place => exact absurd (List.mem_of_getElem? (getElem?_of_placeIn? hplace)) h

variable {K : Type} {rows : List (List String)}

theorem exists_place_of_findSome {α : Type} {id : String} (spot : List String → Nat → Nat → α)
    {s : α} (h : (rows.zipIdx.findSome? fun (row, i) =>
      (placeIn? row id).map fun place => spot row i place) = some s) :
    ∃ i row place, rows[i]? = some row ∧ row[place]? = some id ∧ s = spot row i place := by
  obtain ⟨⟨row, i⟩, hmem, hs⟩ := List.exists_of_findSome?_eq_some h
  obtain ⟨place, hplace, rfl⟩ := Option.map_eq_some_iff.mp hs
  exact ⟨i, row, place, List.mem_zipIdx_iff_getElem?.mp hmem, getElem?_of_placeIn? hplace, rfl⟩

theorem forall_lastSpots {spot? : String → Option (Spot K)} {P : Spot K → Prop}
    (h : ∀ id, ∀ spot ∈ spot? id, P spot) (ids : List String) :
    ∀ s ∈ lastSpots spot? ids, ∀ spot ∈ s, P spot := by
  induction ids with
  | nil => exact List.forall_mem_nil _
  | cons id ids ih =>
    refine List.forall_mem_cons.mpr ⟨fun spot hspot => ?_, ih⟩
    split_ifs at hspot
    · cases hspot
    · exact h id spot hspot

theorem forall_lastSpots_rows {P : Spot K → Prop} (spot : List String → Nat → Nat → Spot K)
    (h : ∀ row ∈ rows, ∀ i < rows.length, ∀ place < row.length, P (spot row i place))
    (ids : List String) :
    ∀ s ∈ lastSpots (fun id => rows.zipIdx.findSome? fun (row, i) =>
      (placeIn? row id).map fun place => spot row i place) ids, ∀ found ∈ s, P found := by
  refine forall_lastSpots (fun id found hfound => ?_) ids
  obtain ⟨i, row, place, hrow, hplace, rfl⟩ := exists_place_of_findSome spot hfound
  exact h row (List.mem_of_getElem? hrow) i (List.getElem?_eq_some_iff.mp hrow).1 place
    (List.getElem?_eq_some_iff.mp hplace).1

/-- **The spot of a node** comes from its place in the row of its layer. -/
theorem Graph.exists_rowSpot [Arith K] {g : Graph} {v : String} (frame : Frame K) (hv : v ∈ g.ids) :
    ∃ row place, (g.rows K)[g.layerOf v]? = some row ∧ row[place]? = some v ∧
      spotInRows frame (g.rows K) v =
        some (rowSpot frame (g.rows K).length (g.layerOf v) row place) := by
  have hsome := isSome_findSome_rows (fun row layer place =>
    rowSpot frame (g.rows K).length layer row place) (mem_rows (K := K) hv)
  obtain ⟨s, hs⟩ := Option.isSome_iff_exists.mp hsome
  obtain ⟨layer, row, place, hrow, hplace, rfl⟩ := exists_place_of_findSome (fun row layer place =>
    rowSpot frame (g.rows K).length layer row place) hs
  obtain rfl := layerOf_of_mem hrow (List.mem_of_getElem? hplace)
  exact ⟨row, place, hrow, hplace, hs⟩

end Places

end CodeAtlas
