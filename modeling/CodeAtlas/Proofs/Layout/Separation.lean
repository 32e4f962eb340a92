import CodeAtlas.Proofs.Layout.LongestPath
import CodeAtlas.Proofs.Layout.Rows
import CodeAtlas.Proofs.Number.Exact

/-!
# Rows keep nodes apart

Rows stand at heights that differ by a fixed step, and the places within a row by another; neither
is zero if the frame is larger than its padding.

* **`Graph.hierarchicalSpots_apart`**: the spots of the nodes of a graph.
-/

namespace CodeAtlas

section Coordinates

variable {gauge : Gauge} (frame : Frame ℝ)

/-- The distance of a place from the left, in the middle of equal parts. -/
noncomputable def rowX (length place : ℕ) : ℝ :=
  frame.padding + (2 * place + 1 : ℕ) *
    ((frame.width - (frame.padding + frame.padding)) / (2 * max length 1 : ℕ))

/-- The distance of a row from the top. -/
noncomputable def rowY (rowCount layer : ℕ) : ℝ :=
  frame.padding + layer *
    ((frame.height - (frame.padding + frame.padding)) / (max (rowCount - 1) 1 : ℕ))

theorem rowSpot_number (rowCount layer : ℕ) (row : List String) (place : ℕ) :
    rowSpot (frame.map (@Exact.number gauge)) rowCount layer row place =
      { x := .number (rowX frame row.length place), y := .number (rowY frame rowCount layer) } := by
  have hpositive : ∀ n : ℕ, ((max n 1 : ℕ) : ℝ) ≠ 0 := fun n =>
    Nat.cast_ne_zero.mpr (by omega)
  have hhalf : ∀ w c : ℝ, c ≠ 0 → (place + 1 / 2) * (w / c) = (2 * place + 1) * (w / (2 * c)) := by
    intro w c hc
    field_simp
  simp only [rowSpot, Frame.map, Exact.int_eq, Exact.nat_eq, Exact.number_sub, Exact.number_mul,
    Exact.number_div _ (hpositive _), Exact.ratio_eq 1 two_ne_zero, Exact.number_add, Int.cast_one,
    Int.cast_ofNat, hhalf _ _ (hpositive _), two_mul frame.padding, rowX, rowY, Nat.cast_add,
    Nat.cast_mul, Nat.cast_ofNat, Nat.cast_one]

theorem rowX_strictMono (h : 2 * frame.padding < frame.width) (length : ℕ) :
    StrictMono (rowX frame length) := by
  intro i j hij
  have hstep : 0 < (frame.width - (frame.padding + frame.padding)) / (2 * max length 1 : ℕ) :=
    div_pos (by linarith) (Nat.cast_pos.mpr (by omega))
  have hplace : ((2 * i + 1 : ℕ) : ℝ) < (2 * j + 1 : ℕ) := Nat.cast_lt.mpr (by omega)
  exact add_lt_add_right (mul_lt_mul_of_pos_right hplace hstep) _

theorem rowY_strictMono (h : 2 * frame.padding < frame.height) (rowCount : ℕ) :
    StrictMono (rowY frame rowCount) := by
  intro i j hij
  have hstep : 0 < (frame.height - (frame.padding + frame.padding)) / (max (rowCount - 1) 1 : ℕ) :=
    div_pos (by linarith) (Nat.cast_pos.mpr (by omega))
  exact add_lt_add_right (mul_lt_mul_of_pos_right (Nat.cast_lt.mpr hij) hstep) _

end Coordinates

/-- **The spots of the hierarchical layout** in a frame larger than its padding. Nodes of one layer
stand at one height, those of different layers at different ones, and no two nodes at one point. -/
theorem Graph.hierarchicalSpots_apart (gauge : Gauge) (g : Graph) (hids : g.ids.Nodup)
    (frame : Frame ℝ) (hwidth : 2 * frame.padding < frame.width)
    (hheight : 2 * frame.padding < frame.height) :
    (∀ next rows, List.Forall₂ List.Perm (sweep (Exact gauge) next rows) rows) ∧
    (g.rows (Exact gauge)).flatten.Perm g.ids ∧
    (∀ (k : ℕ) (row : List String), (g.rows (Exact gauge))[k]? = some row →
      row.Perm (g.ids.filter fun v => g.layerOf v == k)) ∧
    ∃ x y : String → ℝ,
      g.hierarchicalSpots (frame.map (@Exact.number gauge)) =
        g.ids.map (fun v => some { x := .number (x v), y := .number (y v) }) ∧
      (∀ u ∈ g.ids, ∀ v ∈ g.ids, g.layerOf u = g.layerOf v → y u = y v ∧ (u ≠ v → x u ≠ x v)) ∧
      (∀ u ∈ g.ids, ∀ v ∈ g.ids, g.layerOf u ≠ g.layerOf v → y u ≠ y v) ∧
      (∀ u ∈ g.ids, ∀ v ∈ g.ids, u ≠ v → (x u, y u) ≠ (x v, y v)) := by
  refine ⟨fun next rows => sweep_perm next rows, flatten_rows_perm _ g,
    fun k row => perm_of_getElem?_rows, ?_⟩
  choose! row place hrow hplace hspot using fun v (hv : v ∈ g.ids) =>
    exists_rowSpot (frame.map (@Exact.number gauge)) hv
  have hside : ∀ u ∈ g.ids, ∀ v ∈ g.ids, g.layerOf u = g.layerOf v → u ≠ v →
      rowX frame (row u).length (place u) ≠ rowX frame (row v).length (place v) := by
    intro u hu v hv hlayer hne hx
    have hrows : row u = row v :=
      Option.some.inj ((hrow u hu).symm.trans (hlayer ▸ hrow v hv))
    rw [hrows] at hx
    have hplaces := (rowX_strictMono frame hwidth _).injective hx
    have hu' := hplace u hu
    rw [hrows, hplaces, hplace v hv] at hu'
    exact hne (Option.some.inj hu').symm
  have hheights : ∀ u v, g.layerOf u ≠ g.layerOf v →
      rowY frame (g.rows (Exact gauge)).length (g.layerOf u) ≠
        rowY frame (g.rows (Exact gauge)).length (g.layerOf v) := fun u v hlayer hy =>
    hlayer ((rowY_strictMono frame hheight _).injective hy)
  refine ⟨fun v => rowX frame (row v).length (place v),
    fun v => rowY frame (g.rows (Exact gauge)).length (g.layerOf v), ?_,
    fun u hu v hv hlayer => ⟨congrArg (rowY frame _) hlayer, hside u hu v hv hlayer⟩,
    fun u _ v _ => hheights u v, fun u hu v hv hne heq => ?_⟩
  · rw [hierarchicalSpots, lastSpots_of_nodup _ hids]
    refine List.map_congr_left fun v hv => ?_
    rw [hspot v hv, rowSpot_number]
  · obtain ⟨hx, hy⟩ := Prod.mk.inj heq
    by_cases hlayer : g.layerOf u = g.layerOf v
    · exact hside u hu v hv hlayer hne hx
    · exact hheights u v hlayer hy

/-- The usual frame, in real numbers. -/
noncomputable def Frame.usualReal : Frame ℝ := ⟨1200, 800, 50, 100, 300⟩

/-- The node behind the cycle stands beside the start of the path, all others below. -/
theorem Graph.hierarchicalSpots_apart_lasso :
    Lasso.graph.ids.Nodup ∧
    2 * Frame.usualReal.padding < Frame.usualReal.width ∧
    2 * Frame.usualReal.padding < Frame.usualReal.height ∧
    ∃ x y : String → ℝ,
      Lasso.graph.hierarchicalSpots (Frame.usualReal.map (@Exact.number .plane)) =
        ["d", "c", "e", "b", "a"].map
          (fun v => some { x := .number (x v), y := .number (y v) }) ∧
      y "a" = y "e" ∧ x "a" ≠ x "e" ∧ y "b" ≠ y "a" ∧ y "c" ≠ y "b" ∧ y "d" ≠ y "c" := by
  have hids : Lasso.graph.ids.Nodup := by decide +kernel
  have hwidth : 2 * Frame.usualReal.padding < Frame.usualReal.width := by
    norm_num [Frame.usualReal]
  have hheight : 2 * Frame.usualReal.padding < Frame.usualReal.height := by
    norm_num [Frame.usualReal]
  obtain ⟨-, -, -, x, y, hspots, hbeside, hbelow, -⟩ :=
    hierarchicalSpots_apart .plane Lasso.graph hids Frame.usualReal hwidth hheight
  have hlayers : Lasso.graph.layerOf "a" = 0 ∧ Lasso.graph.layerOf "b" = 1 ∧
      Lasso.graph.layerOf "c" = 2 ∧ Lasso.graph.layerOf "d" = 3 ∧ Lasso.graph.layerOf "e" = 0 := by
    unfold layerOf
    rw [Lasso.layers_eq]
    decide
  obtain ⟨ha, hb, hc, hd, he⟩ := hlayers
  obtain ⟨hae, hne⟩ := hbeside "a" (by decide) "e" (by decide) (ha.trans he.symm)
  refine ⟨hids, hwidth, hheight, x, y, hspots, hae, hne (by decide), ?_, ?_, ?_⟩
  · exact hbelow "b" (by decide) "a" (by decide) (by rw [ha, hb]; decide)
  · exact hbelow "c" (by decide) "b" (by decide) (by rw [hb, hc]; decide)
  · exact hbelow "d" (by decide) "c" (by decide) (by rw [hc, hd]; decide)

end CodeAtlas
