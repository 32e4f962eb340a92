import CodeAtlas.Layout.Basic
import CodeAtlas.Proofs.Graph.Dependency
import CodeAtlas.Proofs.Outcome

/-!
# Every node is placed

Where ids are distinct, each layout has a spot for each node: rows and rings hold every id, the
sweeps change the order within a row only, and bodies stay as many.

* **`Graph.laidOut_placed`**: a layout changes the places of the nodes and nothing else.
-/

namespace CodeAtlas

/-! ## Rows -/

section Rows

variable (next : String → List String) {id : String}

theorem mem_layerRows (numbers : Table String Nat) {ids : List String} (h : id ∈ ids) :
    ∃ row ∈ layerRows numbers ids, id ∈ row := by
  have hle : numbers.getD id 0 ≤ (ids.map fun i => numbers.getD i 0).foldl max 0 :=
    (isGreatest_foldl_max _ 0).2 (List.mem_cons_of_mem _ (List.mem_map_of_mem h))
  refine ⟨ids.filter fun i => numbers.getD i 0 == numbers.getD id 0, ?_, by simpa using h⟩
  exact List.mem_map.mpr ⟨numbers.getD id 0, List.mem_range.mpr (Nat.lt_succ_of_le hle), rfl⟩

theorem isSome_placeIn? {row : List String} (h : id ∈ row) :
    (placeIn? row id).isSome = true := by
  obtain ⟨i, hi⟩ := List.mem_iff_getElem?.mp h
  rw [placeIn?, Option.isSome_map, List.find?_isSome]
  exact ⟨(id, i), List.mem_reverse.mpr (List.mem_zipIdx_iff_getElem?.mpr hi), beq_self_eq_true id⟩

variable {K : Type} [Arith K]

theorem orderRow_perm (above row : List String) :
    (orderRow K next above row).Perm row := by
  refine ((List.mergeSort_perm _ _).map _).trans ?_
  rw [List.map_map]
  simp [Function.comp_def]

theorem sweepBelow_perm (above : List String) (rows : List (List String)) :
    List.Forall₂ List.Perm (sweepBelow K next above rows) rows := by
  induction rows generalizing above with
  | nil => exact .nil
  | cons row rows ih => exact .cons (orderRow_perm next above row) (ih _)

/-- **A sweep** changes the order within the rows and nothing else. -/
theorem sweep_perm (rows : List (List String)) :
    List.Forall₂ List.Perm (sweep K next rows) rows := by
  cases rows with
  | nil => exact .nil
  | cons row rows => exact .cons (List.Perm.refl row) (sweepBelow_perm next row rows)

theorem forall₂_perm_trans {as bs cs : List (List String)} (h : List.Forall₂ List.Perm as bs)
    (h' : List.Forall₂ List.Perm bs cs) : List.Forall₂ List.Perm as cs := by
  induction h generalizing cs with
  | nil => exact h'
  | cons hrow _ ih =>
    cases h' with
    | cons hrow' h' => exact .cons (hrow.trans hrow') (ih h')

/-- **The sweeps** change the order within the rows and nothing else. -/
theorem Graph.rows_perm (K : Type) [Arith K] (g : Graph) :
    List.Forall₂ List.Perm (g.rows K) (layerRows g.layers g.ids) :=
  forall₂_perm_trans (sweep_perm _ _) <| forall₂_perm_trans (sweep_perm _ _) <|
    forall₂_perm_trans (sweep_perm _ _) (sweep_perm _ _)

theorem exists_row_of_perm {rows rows' : List (List String)} (h : List.Forall₂ List.Perm rows' rows)
    (hid : ∃ row ∈ rows, id ∈ row) : ∃ row ∈ rows', id ∈ row := by
  induction h with
  | nil => exact hid
  | cons hrow _ ih =>
    obtain ⟨row, hmem, hid⟩ := hid
    rcases List.mem_cons.mp hmem with rfl | hmem
    · exact ⟨_, List.mem_cons_self, hrow.mem_iff.mpr hid⟩
    · obtain ⟨row', hmem', hid'⟩ := ih ⟨row, hmem, hid⟩
      exact ⟨row', List.mem_cons_of_mem _ hmem', hid'⟩

theorem Graph.mem_rows {g : Graph} (h : id ∈ g.ids) :
    ∃ row ∈ g.rows K, id ∈ row :=
  exists_row_of_perm (g.rows_perm K) (mem_layerRows _ h)

omit [Arith K] in
theorem isSome_findSome_rows {rows : List (List String)} (spot : List String → Nat → Nat → Spot K)
    (h : ∃ row ∈ rows, id ∈ row) :
    (rows.zipIdx.findSome? fun (row, i) =>
      (placeIn? row id).map fun place => spot row i place).isSome = true := by
  obtain ⟨row, hrow, hid⟩ := h
  obtain ⟨i, hi⟩ := List.mem_iff_getElem?.mp hrow
  rw [List.findSome?_isSome_iff]
  exact ⟨(row, i), List.mem_zipIdx_iff_getElem?.mpr hi, by simpa using isSome_placeIn? hid⟩

end Rows

/-! ## Bodies -/

section Bodies

variable {K : Type} [Geometry K]

variable (least : K) (forces : Forces K) (slots : List Nat)

theorem size_pushPair (size : K → K) (bodies : Array (Body K)) (pair : Nat × Nat) :
    (pushPair least size bodies pair).size = bodies.size := by
  unfold pushPair
  split <;> simp

theorem size_pullPair (size : K → K → K) (bodies : Array (Body K)) (edge : Pull K) :
    (pullPair least size bodies edge).size = bodies.size := by
  unfold pullPair
  split <;> simp

theorem size_foldl {α β : Type} (step : Array β → α → Array β)
    (h : ∀ bodies x, (step bodies x).size = bodies.size) (xs : List α) (bodies : Array β) :
    (xs.foldl step bodies).size = bodies.size := by
  induction xs generalizing bodies with
  | nil => rfl
  | cons x xs ih => rw [List.foldl_cons, ih, h]

theorem Forces.size_step (pairs : List (Nat × Nat)) (pulls : List (Pull K)) (strength : K)
    (bodies : Array (Body K)) :
    (forces.step slots pairs pulls strength bodies).size = bodies.size := by
  rw [step, size_foldl _ (fun bodies slot => Array.size_modify),
    size_foldl _ (fun bodies edge => size_pullPair _ _ bodies edge),
    size_foldl _ (fun bodies pair => size_pushPair _ _ bodies pair), Array.size_map]

/-- **A run** keeps the number of bodies. -/
theorem Forces.size_run (pulls : List (Pull K)) (rounds : Nat) (bodies : Array (Body K)) :
    (forces.run slots pulls rounds bodies).size = bodies.size := by
  rw [run]
  exact size_foldl _ (fun bodies round => forces.size_step _ _ _ _ bodies) _ _

theorem Random.Twister.length_draws (count : Nat) (t : Random.Twister) :
    (t.draws count).length = count := by
  induction count generalizing t with
  | zero => rfl
  | succ count ih => simp [Random.Twister.draws, ih]

theorem length_layoutFractions (root : Option String) (ids : List String) (count : Nat) :
    (layoutFractions root ids count : List K).length = count := by
  rw [layoutFractions, Random.Twister.fractions, List.length_map, Random.Twister.length_draws]

theorem length_twoByTwo {α : Type} (xs : List α) : (twoByTwo xs).length = xs.length / 2 := by
  fun_induction twoByTwo xs with
  | case1 a b rest ih => simp only [List.length_cons, ih]; omega
  | case2 xs h =>
    match xs, h with
    | [], _ => simp
    | [_], _ => simp
    | a :: b :: rest, h => exact absurd rfl (h a b rest)

theorem size_firstBodies (place : K → K → Body K) (root : Option String) (ids : List String) :
    (firstBodies place root ids).size = ids.eraseDups.length := by
  have hlen : (twoByTwo (layoutFractions root ids (2 * ids.length) : List K)).length =
      ids.length := by
    rw [length_twoByTwo, length_layoutFractions]
    omega
  rw [firstBodies, List.size_toArray]
  refine List.filterMap_length_eq_length.mpr fun id hid => ?_
  have hids : id ∈ ids := List.mem_eraseDups.mp hid
  rw [Option.isSome_map, List.find?_isSome]
  obtain ⟨p, hp, rfl⟩ : ∃ p ∈ ids.zip (twoByTwo (layoutFractions root ids (2 * ids.length))),
      p.1 = id := by
    have hfst : (ids.zip (twoByTwo (layoutFractions (K := K) root ids (2 * ids.length)))).map
        (·.1) = ids := List.map_fst_zip (Nat.le_of_eq hlen.symm)
    rw [← hfst] at hids
    exact List.mem_map.mp hids
  exact ⟨p, List.mem_reverse.mpr hp, beq_self_eq_true _⟩

theorem Graph.bodySpots_isSome (ofAmount : Amount → K) (forces : Forces K) (place : K → K → Body K)
    (frame : Frame K) (g : Graph) (root : Option String) :
    (g.bodySpots ofAmount forces place frame root).length = g.ids.length ∧
      ∀ s ∈ g.bodySpots ofAmount forces place frame root, s.isSome = true := by
  have hslot : ∀ id ∈ g.ids, ∃ i, g.ids.eraseDups.idxOf? id = some i ∧ i < g.ids.eraseDups.length :=
    fun id hid => by
      have hmem : id ∈ g.ids.eraseDups := List.mem_eraseDups.mpr hid
      obtain ⟨i, hi⟩ := Option.isSome_iff_exists.mp (List.isSome_idxOf?.mpr hmem)
      exact ⟨i, hi, (List.idxOf?_eq_some_iff.mp hi).1⟩
  have hlen : (g.ids.filterMap g.ids.eraseDups.idxOf?).length = g.ids.length := by
    refine List.filterMap_length_eq_length.mpr fun id hid => ?_
    obtain ⟨i, hi, -⟩ := hslot id hid
    simp [hi]
  refine ⟨by simp only [bodySpots, List.length_map, hlen], fun s hs => ?_⟩
  obtain ⟨slot, hslot', rfl⟩ := List.mem_map.mp hs
  obtain ⟨id, hid, hidx⟩ := List.mem_filterMap.mp hslot'
  obtain ⟨i, hi, hlt⟩ := hslot id hid
  obtain rfl : i = slot := Option.some.inj (hi.symm.trans hidx)
  have hbound : i < (forces.run (g.ids.filterMap g.ids.eraseDups.idxOf?)
      (pullsOf ofAmount g.ids.eraseDups g.edges) (roundsFor g.ids.length frame.rounds).toNat
      (firstBodies place root g.ids)).size := by
    rw [Forces.size_run, size_firstBodies]
    exact hlt
  rw [Option.isSome_map, Array.getElem?_eq_getElem hbound, Option.isSome_some]

end Bodies

/-! ## All layouts -/

theorem lastSpots_of_nodup {K : Type} (spot? : String → Option (Spot K)) {ids : List String}
    (hd : ids.Nodup) : lastSpots spot? ids = ids.map spot? := by
  induction ids with
  | nil => rfl
  | cons id ids ih =>
    obtain ⟨hid, hd⟩ := List.nodup_cons.mp hd
    have hno : ids.contains id = false := by simpa using hid
    rw [lastSpots, hno, ih hd, List.map_cons]
    rfl

namespace Graph

variable {K : Type} [Geometry K] {g : Graph}

theorem isSome_hub? (hne : g.nodes ≠ []) (wished : Option String) :
    (g.hub? wished).isSome = true := by
  obtain ⟨n, nodes, hn⟩ := List.exists_cons_of_ne_nil hne
  simp [hub?, ids, hn]

variable (ofAmount : Amount → K) (kind : LayoutKind) (frame : Frame K) (root : Option String)

theorem spots_of_nodes_eq_nil (h : g.nodes = []) : g.spots ofAmount kind frame root = [] := by
  have hids : g.ids = [] := by rw [ids, h, List.map_nil]
  cases kind with
  | force => simp [spots, forceSpots, bodySpots, hids]
  | organic => simp [spots, organicSpots, bodySpots, hids]
  | hierarchical => simp [spots, hierarchicalSpots, lastSpots, hids]
  | radial =>
    rw [spots, radialSpots, hids]
    split <;> rfl

/-- **Each layout has a spot for each node.** -/
theorem spots_isSome (hd : g.ids.Nodup) (hne : g.nodes ≠ []) :
    (g.spots ofAmount kind frame root).length = g.ids.length ∧
      ∀ s ∈ g.spots ofAmount kind frame root, s.isSome = true := by
  cases kind with
  | force => exact bodySpots_isSome _ _ _ _ g root
  | organic => exact bodySpots_isSome _ _ _ _ g root
  | hierarchical =>
    rw [spots, hierarchicalSpots, lastSpots_of_nodup _ hd]
    refine ⟨List.length_map _, fun s hs => ?_⟩
    obtain ⟨id, hid, rfl⟩ := List.mem_map.mp hs
    exact isSome_findSome_rows (fun row layer place => rowSpot frame _ layer row place)
      (mem_rows (K := K) hid)
  | radial =>
    obtain ⟨hub, hhub⟩ := Option.isSome_iff_exists.mp (isSome_hub? hne root)
    rw [spots, radialSpots, hhub]
    dsimp only
    rw [lastSpots_of_nodup _ hd]
    refine ⟨List.length_map _, fun s hs => ?_⟩
    obtain ⟨id, hid, rfl⟩ := List.mem_map.mp hs
    exact isSome_findSome_rows (fun members ring place => ringSpot frame _ ring members place)
      (mem_layerRows (g.ringNumbers hub) hid)

end Graph

/-! ## The graph laid out -/

def Node.PlacedAs (n n' : Node) : Prop := ∃ p, n' = { n with position := some p }

theorem Node.placedAs_of_placed {n n' : Node} {spot : Option (Spot Computed)}
    (hs : spot.isSome = true) (h : n.placed spot = .ok n') : n.PlacedAs n' := by
  obtain ⟨s, rfl⟩ := Option.isSome_iff_exists.mp hs
  obtain ⟨p, -, h⟩ := bind_eq_ok.mp h
  exact ⟨p, (Except.ok.inj h).symm⟩

variable {spots : List (Option (Spot Computed))}

theorem placeNodes_placed {nodes nodes' : List Node} (hlen : spots.length = nodes.length)
    (hsome : ∀ s ∈ spots, s.isSome = true) (h : placeNodes nodes spots = .ok nodes') :
    List.Forall₂ Node.PlacedAs nodes nodes' := by
  have hfst : (nodes.zip spots).map Prod.fst = nodes := List.map_fst_zip (Nat.le_of_eq hlen.symm)
  rw [← hfst, List.forall₂_map_left_iff]
  have hspot : ∀ x ∈ nodes.zip spots, x.2.isSome = true := fun x hx =>
    hsome x.2 (List.of_mem_zip hx).2
  have hboth := (List.forall₂_and_left _ _).mpr ⟨hspot, forall₂_of_mapM_ok h⟩
  exact hboth.imp fun x n' hx => Node.placedAs_of_placed hx.1 hx.2

/-- **A layout places every node** and changes nothing else. -/
theorem Graph.laidOut_placed {g g' : Graph} {kind : LayoutKind} {frame : Frame Amount}
    {root : Option String} (hd : g.ids.Nodup) (h : g.laidOut kind frame root = .ok g') :
    List.Forall₂ Node.PlacedAs g.nodes g'.nodes ∧ g'.edges = g.edges ∧
      g'.metadata = g.metadata := by
  unfold laidOut at h
  split at h
  · rename_i hempty
    obtain rfl := Except.ok.inj h
    rw [List.isEmpty_iff.mp hempty]
    exact ⟨.nil, rfl, rfl⟩
  · rename_i hnonempty
    have hne : g.nodes ≠ [] := fun e => hnonempty (List.isEmpty_iff.mpr e)
    obtain ⟨hlen, hsome⟩ :=
      spots_isSome Amount.computed kind (frame.map Amount.computed) root hd hne
    obtain ⟨_, -, h⟩ := bind_eq_ok.mp h
    obtain ⟨nodes, hnodes, h⟩ := bind_eq_ok.mp h
    obtain rfl := Except.ok.inj h
    exact ⟨placeNodes_placed (hlen.trans (by simp [ids])) hsome hnodes, rfl, rfl⟩

/-! ## What a layout looks at -/

theorem exists_placeNodes_congr {nodes nodes' placed : List Node}
    (hlen : nodes'.length = nodes.length) (h : placeNodes nodes spots = .ok placed) :
    ∃ placed', placeNodes nodes' spots = .ok placed' := by
  induction nodes generalizing nodes' placed spots with
  | nil =>
    rw [List.eq_nil_of_length_eq_zero hlen]
    exact ⟨placed, h⟩
  | cons n nodes ih =>
    obtain ⟨n', rest, rfl⟩ := List.exists_cons_of_length_eq_add_one hlen
    cases spots with
    | nil => exact ⟨[], rfl⟩
    | cons spot spots =>
      rw [placeNodes, List.zip_cons_cons, List.mapM_cons] at h
      obtain ⟨m, hm, h⟩ := bind_eq_ok.mp h
      obtain ⟨ms, hms, -⟩ := bind_eq_ok.mp h
      obtain ⟨m', hm'⟩ : ∃ m', n'.placed spot = .ok m' := by
        cases spot with
        | none => exact ⟨n', rfl⟩
        | some s =>
          obtain ⟨p, hp, -⟩ := bind_eq_ok.mp hm
          exact ⟨_, bind_eq_ok.mpr ⟨p, hp, rfl⟩⟩
      obtain ⟨ms', hms'⟩ := ih (Nat.succ.inj hlen) hms
      refine ⟨m' :: ms', ?_⟩
      rw [placeNodes, List.zip_cons_cons, List.mapM_cons]
      exact bind_eq_ok.mpr ⟨m', hm', bind_eq_ok.mpr ⟨ms', hms', rfl⟩⟩

namespace Graph

variable {g g' : Graph}

theorem spots_congr {K : Type} [Geometry K] (hids : g'.ids = g.ids) (hedges : g'.edges = g.edges)
    (ofAmount : Amount → K) (kind : LayoutKind) (frame : Frame K) (root : Option String) :
    g'.spots ofAmount kind frame root = g.spots ofAmount kind frame root := by
  have hholds : g'.holds = g.holds := by
    funext e
    rw [holds, holds, hids]
  have hpairs : g'.connections = g.connections := by
    rw [connections, connections, hedges, hholds]
  cases kind with
  | force => simp only [spots, forceSpots, bodySpots, hids, hedges]
  | organic => simp only [spots, organicSpots, bodySpots, hids, hedges]
  | hierarchical => simp only [spots, hierarchicalSpots, rows, layers, hids, hpairs]
  | radial => simp only [spots, radialSpots, hub?, rings, ringNumbers, hids, hpairs]

/-- **Whether a graph can be laid out** depends on its ids and edges alone. -/
theorem exists_laidOut_congr (hids : g'.ids = g.ids) (hedges : g'.edges = g.edges)
    {kind : LayoutKind} {frame : Frame Amount} {root : Option String} {placed : Graph}
    (h : g.laidOut kind frame root = .ok placed) :
    ∃ placed', g'.laidOut kind frame root = .ok placed' := by
  have hlen : g'.nodes.length = g.nodes.length := by
    simpa [ids] using congrArg List.length hids
  have hground : ∀ frame : Frame Computed, g'.groundwork kind frame = g.groundwork kind frame := by
    intro frame
    cases kind <;> simp only [groundwork, hids]
  rw [laidOut]
  split
  · exact ⟨g', rfl⟩
  · rename_i hnonempty
    have hne : ¬ g.nodes.isEmpty = true := by
      simpa [List.isEmpty_iff, ← List.length_eq_zero_iff, hlen] using hnonempty
    rw [laidOut, if_neg hne] at h
    obtain ⟨measures, hmeasures, h⟩ := bind_eq_ok.mp h
    obtain ⟨nodes, hnodes, -⟩ := bind_eq_ok.mp h
    obtain ⟨nodes', hnodes'⟩ := exists_placeNodes_congr hlen hnodes
    refine ⟨{ g' with nodes := nodes' },
      bind_eq_ok.mpr ⟨measures, ?_, bind_eq_ok.mpr ⟨nodes', ?_, rfl⟩⟩⟩
    · rw [hground, hmeasures]
    · rw [spots_congr hids hedges, hnodes']

end Graph

end CodeAtlas
