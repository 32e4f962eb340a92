import CodeAtlas.Proofs.Layout.Separation
import CodeAtlas.Proofs.Layout.Settling

/-!
# Nodes stay inside the frame

Bodies are moved back into the frame at the end of each round, the places of rows are parts of what
the padding leaves, and a ring is no wider. Rounding crosses no integer.

* **`Graph.spots_inside`**: the spots of the nodes of a graph.
-/

namespace CodeAtlas

open Exact

variable {gauge : Gauge}

/-- The spot is a point of the frame, away from the border by the padding. -/
def Frame.Holds (frame : Frame ℝ) (s : Spot (Exact gauge)) : Prop :=
  ∃ x ∈ Set.Icc frame.padding (frame.width - frame.padding),
    ∃ y ∈ Set.Icc frame.padding (frame.height - frame.padding),
      s.x = .number x ∧ s.y = .number y

/-! ## Bodies -/

structure Body.Defined (b : Body (Exact gauge)) : Prop where
  x : b.x.Defined
  y : b.y.Defined
  dx : b.dx.Defined
  dy : b.dy.Defined

section Bodies

variable {a b : Body (Exact gauge)} {least c d : Exact gauge}

theorem defined_vectorLength (hc : c.Defined) (hd : d.Defined) : (vectorLength c d).Defined := by
  obtain ⟨x, rfl⟩ := hc
  obtain ⟨y, rfl⟩ := hd
  exact ⟨_, sqrt_eq (add_nonneg (mul_self_nonneg x) (mul_self_nonneg y))⟩

theorem exists_gap (hleast : ∃ x ≠ 0, least = .number x) (hc : c.Defined) :
    ∃ x ≠ 0, (if Arith.isZero c then least else c) = .number x := by
  split_ifs with hzero
  · exact hleast
  · obtain ⟨x, rfl⟩ := hc
    exact ⟨x, fun h => hzero (isZero_iff.mpr h), rfl⟩

/-- **The force between two bodies** can be calculated, if it can from their distance. -/
theorem defined_forceBetween {size : Exact gauge → Exact gauge}
    (hleast : ∃ x ≠ 0, least = .number x) (hsize : ∀ x ≠ 0, (size (.number x)).Defined)
    (ha : a.Defined) (hb : b.Defined) :
    (forceBetween least size a b).1.Defined ∧ (forceBetween least size a b).2.Defined := by
  have hdx := hb.x.sub ha.x
  have hdy := hb.y.sub ha.y
  obtain ⟨gap, hgap, hdistance⟩ := exists_gap hleast (defined_vectorLength hdx hdy)
  simp only [forceBetween, hdistance]
  exact ⟨(hdx.div hgap).mul (hsize gap hgap), (hdy.div hgap).mul (hsize gap hgap)⟩

theorem Body.Defined.drift (h : b.Defined) (hc : c.Defined) (hd : d.Defined) :
    (b.driven c d).Defined ∧ (b.held c d).Defined :=
  ⟨⟨h.x, h.y, h.dx.add hc, h.dy.add hd⟩, ⟨h.x, h.y, h.dx.sub hc, h.dy.sub hd⟩⟩

end Bodies

/-! ## The two kinds of forces -/

section Forces

variable (frame : Frame ℝ) {b : Body (Exact gauge)} {c s : Exact gauge}

theorem defined_part (x : ℝ) (n : ℤ) (hn : n ≠ 0) :
    (.number x / Arith.int n : Exact gauge).Defined :=
  (defined_number x).div (Int.cast_ne_zero.mpr hn)

theorem exists_one : ∃ x ≠ 0, (Arith.int 1 : Exact gauge) = .number x := ⟨1, one_ne_zero, by simp⟩

theorem exists_hundredth : ∃ x ≠ 0, (Arith.ratio 1 100 : Exact gauge) = .number x :=
  ⟨_, by norm_num, ratio_eq 1 (b := 100) (by decide)⟩

theorem defined_springLength (hc : c.Defined) :
    (springLength (frame.map (@number gauge)) c).Defined := by
  obtain ⟨x, hx, hgiven⟩ := exists_gap exists_one hc
  simp only [springLength, hgiven]
  exact (defined_number _).mul ((defined_number _).add ((defined_number _).div hx))

theorem defined_drift {place drift : Exact gauge} (size : ℝ) (hplace : place.Defined)
    (hdrift : drift.Defined) (hs : s.Defined) :
    ((drift + (.number size / Arith.int 2 - place) * Arith.ratio 1 100 * s) *
      Arith.ratio 9 10).Defined := by
  have hpull := ((defined_part size 2 (by decide)).sub hplace).mul (defined_ratio 1 100 (by decide))
  exact (hdrift.add (hpull.mul hs)).mul (defined_ratio 9 10 (by decide))

theorem defined_moved {place drift length limit : Exact gauge} (hplace : place.Defined)
    (hdrift : drift.Defined) (hlength : length.Defined) (hlimit : limit.Defined) :
    (if Arith.int 0 < length then place + drift / length * limit else place).Defined := by
  obtain ⟨x, rfl⟩ := hlength
  split_ifs with hpos
  · rw [int_eq, number_lt, Int.cast_zero] at hpos
    exact hplace.add ((hdrift.div hpos.ne').mul hlimit)
  · exact hplace

theorem defined_clamp (low high : ℝ) (hc : c.Defined) :
    (Arith.clamp c (.number low) (.number high)).Defined := by
  obtain ⟨x, rfl⟩ := hc
  exact defined_number _

theorem Body.Defined.driftToCentre (hs : s.Defined) (h : b.Defined) :
    (driftToCentre (frame.map number) s b).Defined := by
  have hdx := defined_drift frame.width h.x h.dx hs
  have hdy := defined_drift frame.height h.y h.dy hs
  exact ⟨defined_clamp _ _ (h.x.add hdx), defined_clamp _ _ (h.y.add hdy), hdx, hdy⟩

theorem Body.Defined.moveAtMost (hs : s.Defined) (h : b.Defined) :
    (moveAtMost (frame.map number) s b).Defined := by
  have hlength := defined_vectorLength h.dx h.dy
  have hreach := (defined_part frame.width 10 (by decide)).mul hs
  have hlimit := hlength.min hreach
  exact ⟨defined_clamp _ _ (defined_moved h.x h.dx hlength hlimit),
    defined_clamp _ _ (defined_moved h.y h.dy hlength hlimit), h.dx, h.dy⟩

/-- **Springs** can be calculated round after round. -/
theorem keeps_springForces :
    (springForces (frame.map (@number gauge))).Keeps Body.Defined Defined Defined Defined where
  wake := fun _ h => h
  push := fun s a b hs ha hb => by
    refine defined_forceBetween exists_one (fun x hx => ?_) ha hb
    exact ((defined_number _).mul hs).div (mul_ne_zero hx hx)
  pull := fun s w a b hs hw ha hb => by
    refine defined_forceBetween exists_one (fun x hx => ?_) ha hb
    have hgap := (defined_number x).sub (defined_springLength frame hw)
    exact ((defined_ratio 1 10 (by decide)).mul hgap).mul hs
  drift := fun _ _ _ h hx hy => h.drift hx hy
  settle := fun _ _ hs h => h.driftToCentre frame hs

/-- **Forces of area** can be calculated round after round. -/
theorem keeps_areaForces {side : ℝ} (hside : side ≠ 0) :
    (areaForces (frame.map (@number gauge)) (.number side)).Keeps Body.Defined Defined Defined
      Defined where
  wake := fun _ h => ⟨h.x, h.y, defined_number _, defined_number _⟩
  push := fun s a b _ ha hb => by
    refine defined_forceBetween exists_hundredth (fun x hx => ?_) ha hb
    exact (defined_number _).div hx
  pull := fun s w a b _ _ ha hb => by
    refine defined_forceBetween exists_hundredth (fun x hx => ?_) ha hb
    exact (defined_number _).div hside
  drift := fun _ _ _ h hx hy => h.drift hx hy
  settle := fun _ _ hs h => h.moveAtMost frame hs

end Forces

/-! ## Spots within the padding -/

theorem part_mem_Icc {t span : ℝ} {n : ℕ} (ht : 0 ≤ t) (htn : t ≤ n) (hn : 0 < n)
    (hspan : 0 ≤ span) : t * (span / n) ∈ Set.Icc 0 span := by
  have hpos : (0 : ℝ) < n := Nat.cast_pos.mpr hn
  refine ⟨mul_nonneg ht (div_nonneg hspan hpos.le), ?_⟩
  calc t * (span / n) ≤ n * (span / n) := mul_le_mul_of_nonneg_right htn (div_nonneg hspan hpos.le)
    _ = span := mul_div_cancel₀ span hpos.ne'

theorem abs_mul_le_of_unit {r c bound : ℝ} (hr : r ∈ Set.Icc 0 bound) (hc : |c| ≤ 1) :
    |r * c| ≤ bound :=
  calc |r * c| = r * |c| := by rw [abs_mul, abs_of_nonneg hr.1]
    _ ≤ r := mul_le_of_le_one_right hr.1 hc
    _ ≤ bound := hr.2

theorem mem_Icc_of_abs_le {size padding d : ℝ} (h : |d| ≤ size / 2 - padding) :
    size / 2 + d ∈ Set.Icc padding (size - padding) := by
  obtain ⟨hlow, hhigh⟩ := abs_le.mp h
  exact ⟨by linarith, by linarith⟩

theorem defined_angle (gauge : Gauge) (place : ℕ) {count : ℕ} (hcount : 0 < count) :
    (Arith.nat place * (Arith.int 2 * Geometry.pi / Arith.nat count) -
      Geometry.pi / Arith.int 2 : Exact gauge).Defined := by
  rw [nat_eq, nat_eq, int_eq, pi_eq, number_mul]
  have hturn : (number (((2 : ℤ) : ℝ) * gauge.pi) / number count : Exact gauge).Defined :=
    (defined_number _).div (Nat.cast_ne_zero.mpr hcount.ne')
  exact ((defined_number _).mul hturn).sub (defined_part _ 2 (by decide))

namespace Frame

theorem centre_number (frame : Frame ℝ) :
    (frame.map (@number gauge)).centre = (number (frame.width / 2), number (frame.height / 2)) := by
  simp only [centre, map, int_eq, Int.cast_ofNat, number_div _ (two_ne_zero (α := ℝ))]

theorem reach_number (frame : Frame ℝ) : (frame.map (@number gauge)).reach =
    number (min frame.width frame.height / 2 - frame.padding) := by
  dsimp only [reach, map]
  rw [min_eq, int_eq, Int.cast_ofNat, number_div _ (two_ne_zero (α := ℝ)), number_sub]

variable {frame : Frame ℝ} (hwidth : 2 * frame.padding ≤ frame.width)
  (hheight : 2 * frame.padding ≤ frame.height)

include hwidth hheight

theorem holds_clamp {c d : Exact gauge} (hc : c.Defined) (hd : d.Defined) :
    frame.Holds { x := Arith.clamp c (.number frame.padding) (.number (frame.width - frame.padding))
                  y := Arith.clamp d (.number frame.padding)
                    (.number (frame.height - frame.padding)) } := by
  have hx : frame.padding ≤ frame.width - frame.padding := by linarith
  have hy : frame.padding ≤ frame.height - frame.padding := by linarith
  obtain ⟨x, rfl⟩ := hc
  obtain ⟨y, rfl⟩ := hd
  exact ⟨_, ⟨le_max_left _ _, max_le hx (min_le_left _ x)⟩,
    _, ⟨le_max_left _ _, max_le hy (min_le_left _ y)⟩, clamp_eq _ _ _, clamp_eq _ _ _⟩

theorem holds_driftToCentre {s : Exact gauge} {b : Body (Exact gauge)} (hs : s.Defined)
    (h : b.Defined) :
    frame.Holds { x := (driftToCentre (frame.map number) s b).x
                  y := (driftToCentre (frame.map number) s b).y } :=
  holds_clamp hwidth hheight (h.x.add (defined_drift frame.width h.x h.dx hs))
    (h.y.add (defined_drift frame.height h.y h.dy hs))

theorem holds_moveAtMost {s : Exact gauge} {b : Body (Exact gauge)} (hs : s.Defined)
    (h : b.Defined) :
    frame.Holds { x := (moveAtMost (frame.map number) s b).x
                  y := (moveAtMost (frame.map number) s b).y } := by
  have hlength := defined_vectorLength h.dx h.dy
  have hlimit := hlength.min ((defined_part frame.width 10 (by decide)).mul hs)
  exact holds_clamp hwidth hheight (defined_moved h.x h.dx hlength hlimit)
    (defined_moved h.y h.dy hlength hlimit)

/-- **A place in a row** is in the frame. -/
theorem holds_rowSpot {rowCount layer place : ℕ} {row : List String} (hlayer : layer < rowCount)
    (hplace : place < row.length) :
    frame.Holds (rowSpot (frame.map (@number gauge)) rowCount layer row place) := by
  rw [rowSpot_number]
  have hlast : ((2 * place + 1 : ℕ) : ℝ) ≤ (2 * max row.length 1 : ℕ) :=
    Nat.cast_le.mpr (by omega)
  have hlowest : (layer : ℝ) ≤ (max (rowCount - 1) 1 : ℕ) := Nat.cast_le.mpr (by omega)
  have hwide : 0 ≤ frame.width - (frame.padding + frame.padding) := by linarith
  have hhigh : 0 ≤ frame.height - (frame.padding + frame.padding) := by linarith
  obtain ⟨hx, hx'⟩ := part_mem_Icc (Nat.cast_nonneg _) hlast (by omega) hwide
  obtain ⟨hy, hy'⟩ := part_mem_Icc (Nat.cast_nonneg _) hlowest (by omega) hhigh
  exact ⟨_, ⟨by rw [rowX]; linarith, by rw [rowX]; linarith⟩, _,
    ⟨by rw [rowY]; linarith, by rw [rowY]; linarith⟩, rfl, rfl⟩

/-- **A place on a ring** is in the frame. -/
theorem holds_ringSpot {ringCount ring place : ℕ} {members : List String}
    (hring : ring < ringCount) (hplace : place < members.length) :
    frame.Holds (ringSpot (frame.map (@number gauge)) ringCount ring members place) := by
  have hreach : 0 ≤ min frame.width frame.height / 2 - frame.padding := by
    have hboth := le_min hwidth hheight
    linarith
  have hleft := min_le_left frame.width frame.height
  have hright := min_le_right frame.width frame.height
  unfold ringSpot
  rw [centre_number, reach_number]
  dsimp only
  split_ifs with hzero
  · exact ⟨_, ⟨by linarith, by linarith⟩, _, ⟨by linarith, by linarith⟩, rfl, rfl⟩
  · have hlast : (ring : ℝ) ≤ (max (ringCount - 1) 1 : ℕ) := Nat.cast_le.mpr (by omega)
    have hpos : 0 < max (ringCount - 1) 1 := by omega
    have hradius := part_mem_Icc (Nat.cast_nonneg ring) hlast hpos hreach
    obtain ⟨angle, hangle⟩ := defined_angle gauge place (Nat.zero_lt_of_lt hplace)
    rw [hangle, nat_eq, nat_eq, number_div _ (Nat.cast_ne_zero.mpr hpos.ne'), number_mul, cos_eq,
      sin_eq, number_mul, number_mul, number_add, number_add]
    have hx := abs_mul_le_of_unit hradius (gauge.abs_cos_le angle)
    have hy := abs_mul_le_of_unit hradius (gauge.abs_sin_le angle)
    exact ⟨_, mem_Icc_of_abs_le (hx.trans (by linarith)), _,
      mem_Icc_of_abs_le (hy.trans (by linarith)), rfl, rfl⟩

end Frame

/-! ## Frames in integers -/

/-- A frame in integers with room within its padding and a round asked for. -/
structure Frame.Roomy (frame : Frame ℝ) : Prop where
  whole : ∃ width height padding : ℤ,
    frame.width = width ∧ frame.height = height ∧ frame.padding = padding
  width_pos : 0 < frame.width
  height_pos : 0 < frame.height
  fits : 2 * frame.padding ≤ min frame.width frame.height
  rounds : 1 ≤ frame.rounds

/-- **Rounding** leaves a spot in the frame. -/
theorem Frame.Holds.final {frame : Frame ℝ} {s : Spot (Exact gauge)} (hframe : frame.Roomy)
    (h : frame.Holds s) :
    ∃ x ∈ Set.Icc frame.padding (frame.width - frame.padding),
      ∃ y ∈ Set.Icc frame.padding (frame.height - frame.padding),
        s.final = (.number x, .number y) := by
  obtain ⟨x, hx, y, hy, hsx, hsy⟩ := h
  unfold Spot.final
  rw [hsx, hsy]
  -- only the centre of the rings is written as it is
  split_ifs
  · obtain ⟨width, height, padding, hwidth, hheight, hpadding⟩ := hframe.whole
    rw [hwidth, hpadding, ← Int.cast_sub] at hx ⊢
    rw [hheight, hpadding, ← Int.cast_sub] at hy
    rw [hheight, ← Int.cast_sub, round_eq, round_eq]
    exact ⟨_, ⟨le_roundTo 2 hx.1, roundTo_le 2 hx.2⟩, _, ⟨le_roundTo 2 hy.1, roundTo_le 2 hy.2⟩,
      rfl⟩
  · exact ⟨x, hx, y, hy, rfl⟩

/-! ## All layouts -/

theorem LayoutKind.ofName_of_not_mem {name : String} (h : name ∉ all.map LayoutKind.name) :
    ofName name = .force := by
  have hnone : all.find? (·.name == name) = none := by
    refine List.find?_eq_none.mpr fun kind hkind heq => h ?_
    exact List.mem_map.mpr ⟨kind, hkind, beq_iff_eq.mp heq⟩
  rw [ofName, hnone, Option.getD_none]

namespace Graph

variable {g : Graph} {frame : Frame ℝ}

theorem defined_layoutFractions (root : Option String) (ids : List String) (count : ℕ) :
    ∀ c ∈ (layoutFractions root ids count : List (Exact gauge)), c.Defined := by
  intro c hc
  obtain ⟨n, -, rfl⟩ := List.mem_map.mp hc
  exact defined_ratio n _ (by decide)

theorem defined_strength {round rounds : ℕ} (h : round < rounds) :
    (Arith.int 1 - Arith.nat round / Arith.nat rounds : Exact gauge).Defined := by
  rw [nat_eq, nat_eq]
  exact (defined_number _).sub ((defined_number _).div (Nat.cast_ne_zero.mpr (by omega)))

theorem exists_shareSide_number (gauge : Gauge) (hframe : frame.Roomy) (hne : g.nodes ≠ []) :
    ∃ side ≠ 0, shareSide (frame.map (@number gauge)) g.ids.length = .number side := by
  have hpos : (0 : ℝ) < g.ids.length := by
    rw [ids, List.length_map]
    exact Nat.cast_pos.mpr (List.length_pos_of_ne_nil hne)
  have harea : 0 < frame.width * frame.height / g.ids.length :=
    div_pos (mul_pos hframe.width_pos hframe.height_pos) hpos
  refine ⟨_, gauge.sqrt_ne_zero _ harea, ?_⟩
  rw [shareSide, nat_eq]
  change Geometry.sqrt (number (frame.width * frame.height) / number _) = _
  rw [number_div _ hpos.ne', sqrt_eq harea.le]

theorem defined_aroundCentre {a b : Exact gauge} (ha : a.Defined) (hb : b.Defined) :
    (aroundCentre (frame.map number) a b).Defined := by
  have hhalf : (Arith.ratio 1 2 : Exact gauge).Defined := defined_ratio 1 2 (by decide)
  have hshift : ∀ {c : Exact gauge} (size : ℝ), c.Defined →
      (.number size / Arith.int 2 + (c - Arith.ratio 1 2) * .number size *
        Arith.ratio 1 2).Defined := fun size hc =>
    (defined_part size 2 (by decide)).add (((hc.sub hhalf).mul (defined_number size)).mul hhalf)
  exact ⟨hshift frame.width ha, hshift frame.height hb, defined_number _, defined_number _⟩

theorem defined_withinPadding {a b : Exact gauge} (ha : a.Defined) (hb : b.Defined) :
    (withinPadding (frame.map number) a b).Defined :=
  ⟨(defined_number _).add (ha.mul (defined_number _)),
    (defined_number _).add (hb.mul (defined_number _)), defined_number _, defined_number _⟩

theorem holds_bodySpots {forces : Forces (Exact gauge)}
    (h : forces.Keeps Body.Defined Defined Defined Defined)
    (hsettle : ∀ s b, s.Defined → b.Defined →
      frame.Holds { x := (forces.settle s b).x, y := (forces.settle s b).y })
    {place : Exact gauge → Exact gauge → Body (Exact gauge)}
    (hplace : ∀ a b, a.Defined → b.Defined → (place a b).Defined) (hrounds : 0 < frame.rounds)
    (ofAmount : Amount → ℝ) (root : Option String) :
    ∀ s ∈ g.bodySpots (fun a => number (ofAmount a)) forces place (frame.map number) root,
      ∀ spot ∈ s, frame.Holds spot := by
  have hfirst := forall_firstBodies root g.ids (defined_layoutFractions root g.ids _) hplace
  intro s hs spot hspot
  obtain ⟨left, b, hleft, hb, rfl⟩ := bodySpots_settled h (fun _ => defined_number _) g
    hrounds (fun _ _ => defined_strength) hfirst s hs spot hspot
  exact hsettle left b hleft hb

/-- **The spots of all layouts** are in the frame. -/
theorem holds_spots (hframe : frame.Roomy) (ofAmount : Amount → ℝ) (kind : LayoutKind)
    (root : Option String) :
    ∀ s ∈ g.spots (fun a => @number gauge (ofAmount a)) kind (frame.map number) root,
      ∀ spot ∈ s, frame.Holds spot := by
  have hwidth := hframe.fits.trans (min_le_left _ _)
  have hheight := hframe.fits.trans (min_le_right _ _)
  cases kind with
  | force =>
    exact holds_bodySpots (keeps_springForces frame)
      (fun _ _ => Frame.holds_driftToCentre hwidth hheight) (fun _ _ => defined_aroundCentre)
      hframe.rounds ofAmount root
  | organic =>
    -- without nodes there is no share of the area to divide by
    by_cases hne : g.nodes = []
    · rw [spots_of_nodes_eq_nil _ _ _ _ hne]
      exact List.forall_mem_nil _
    · obtain ⟨side, hside, heq⟩ := exists_shareSide_number gauge hframe hne
      rw [spots, organicSpots, heq]
      exact holds_bodySpots (keeps_areaForces frame hside)
        (fun _ _ => Frame.holds_moveAtMost hwidth hheight) (fun _ _ => defined_withinPadding)
        hframe.rounds ofAmount root
  | hierarchical =>
    exact forall_lastSpots_rows (fun row layer place =>
      rowSpot _ (g.rows (Exact gauge)).length layer row place)
      (fun _ _ _ hlayer _ hplace => Frame.holds_rowSpot hwidth hheight hlayer hplace) g.ids
  | radial =>
    rw [spots, radialSpots]
    split
    · exact List.forall_mem_nil _
    · rename_i hub _
      exact forall_lastSpots_rows (fun members ring place =>
        ringSpot _ (g.rings hub).length ring members place)
        (fun _ _ _ hring _ hplace => Frame.holds_ringSpot hwidth hheight hring hplace) g.ids

theorem defined_groundwork (hframe : frame.Roomy) (hne : g.nodes ≠ []) (kind : LayoutKind) :
    ∀ c ∈ g.groundwork kind (frame.map (@number gauge)), c.Defined := by
  intro c hc
  cases kind with
  | force => exact absurd hc List.not_mem_nil
  | hierarchical => exact absurd hc List.not_mem_nil
  | radial =>
    rw [groundwork, Frame.centre_number, Frame.reach_number] at hc
    simp only [List.mem_cons, List.not_mem_nil, or_false] at hc
    rcases hc with rfl | rfl | rfl <;> exact defined_number _
  | organic =>
    obtain ⟨side, -, hside⟩ := exists_shareSide_number gauge hframe hne
    rw [groundwork, hside, List.mem_singleton] at hc
    exact ⟨side, hc⟩

/-- **Where a layout puts the nodes** of a graph with distinct ids. In a frame of integers with room
within its padding, each node has a spot, away from the border by the padding, also as it is
written. -/
theorem spots_inside (gauge : Gauge) (g : Graph) (hids : g.ids.Nodup) (frame : Frame ℝ)
    (hframe : frame.Roomy) (ofAmount : Amount → ℝ) (root : Option String) :
    (∀ name, name ∉ LayoutKind.all.map LayoutKind.name → LayoutKind.ofName name = .force) ∧
    ∀ kind : LayoutKind,
      (g.nodes ≠ [] → ∀ c ∈ g.groundwork kind (frame.map (@number gauge)), c.Defined) ∧
      (g.spots (fun a => number (ofAmount a)) kind (frame.map (@number gauge)) root).length =
        g.ids.length ∧
      ∀ s ∈ g.spots (fun a => number (ofAmount a)) kind (frame.map (@number gauge)) root,
        ∃ spot, s = some spot ∧
          ∃ x ∈ Set.Icc frame.padding (frame.width - frame.padding),
            ∃ y ∈ Set.Icc frame.padding (frame.height - frame.padding),
              spot.final = (.number x, .number y) := by
  refine ⟨fun name => LayoutKind.ofName_of_not_mem, fun kind => ?_⟩
  refine ⟨fun hne => defined_groundwork hframe hne kind, ?_⟩
  by_cases hne : g.nodes = []
  · rw [spots_of_nodes_eq_nil _ _ _ _ hne, ids, hne]
    exact ⟨rfl, List.forall_mem_nil _⟩
  obtain ⟨hlen, hsome⟩ := spots_isSome (fun a => @number gauge (ofAmount a)) kind
    (frame.map number) root hids hne
  refine ⟨hlen, fun s hs => ?_⟩
  obtain ⟨spot, rfl⟩ := Option.isSome_iff_exists.mp (hsome s hs)
  exact ⟨spot, rfl, (holds_spots hframe ofAmount kind root _ hs spot rfl).final hframe⟩

end Graph

theorem Frame.roomy_usualReal : Frame.usualReal.Roomy where
  whole := ⟨1200, 800, 50, by norm_num [usualReal]⟩
  width_pos := by norm_num [usualReal]
  height_pos := by norm_num [usualReal]
  fits := by norm_num [usualReal]
  rounds := by decide

/-- A graph with a cycle in the usual frame, by each layout and by none. -/
theorem Graph.spots_inside_lasso :
    Lasso.graph.ids.Nodup ∧ Frame.usualReal.Roomy ∧
    ∀ kind ∈ LayoutKind.ofName "spiral" :: LayoutKind.all,
      (Lasso.graph.spots (fun _ => number 2) kind (Frame.usualReal.map (@number .plane))
        (some "a")).length = 5 ∧
      ∀ s ∈ Lasso.graph.spots (fun _ => number 2) kind (Frame.usualReal.map (@number .plane))
          (some "a"),
        ∃ spot, s = some spot ∧ ∃ x ∈ Set.Icc 50 (1200 - 50 : ℝ), ∃ y ∈ Set.Icc 50 (800 - 50 : ℝ),
          spot.final = (.number x, .number y) := by
  have hids : Lasso.graph.ids.Nodup := by decide +kernel
  refine ⟨hids, Frame.roomy_usualReal, fun kind _ => ?_⟩
  obtain ⟨-, hinside⟩ := spots_inside .plane Lasso.graph hids Frame.usualReal
    Frame.roomy_usualReal (fun _ => 2) (some "a")
  exact (hinside kind).2

end CodeAtlas
