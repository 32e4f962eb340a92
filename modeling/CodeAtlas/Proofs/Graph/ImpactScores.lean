import CodeAtlas.Graph.Filter
import CodeAtlas.Proofs.Graph.Importance
import CodeAtlas.Proofs.Number.Values

/-!
# Impact scores and what they let through

Every node has some importance, so the most important one has a hundred. Rounding keeps the order. A
higher least score keeps what it would keep of the part that a lower one has kept.

* **`Graph.impactScores_scaled`**: the scores of a graph, and the parts with a least score.
-/

namespace CodeAtlas

/-! ## Scores of a graph -/

theorem scoreOf_map {F : ℚ → ℚ} (hF : F 0 = 0) (scores : List (String × ℚ)) (id : String) :
    scoreOf (scores.map fun p => (p.1, F p.2)) id = F (scoreOf scores id) := by
  induction scores with
  | nil => exact hF.symm
  | cons p scores ih =>
    rw [List.map_cons, scoreOf_cons, scoreOf_cons, ih]
    split_ifs <;> rfl

namespace Graph

variable {g : Graph}

/-- The importance of a node in exact arithmetic. -/
def importanceOf (g : Graph) (n : Node) : ℚ := scoreOf g.usualImportance n.id

theorem map_fst_usualImportance (hd : g.ids.Nodup) :
    (g.usualImportance : List (String × ℚ)).map (·.1) = g.ids := map_fst_importanceAfter hd _

theorem map_importanceOf (hd : g.ids.Nodup) :
    g.nodes.map g.importanceOf = (g.usualImportance : List (String × ℚ)).map (·.2) := by
  have hids := map_fst_usualImportance hd
  rw [← map_scoreOf (by rw [hids]; exact hd), hids, ids, List.map_map]
  rfl

/-- **Every node has some importance.** -/
theorem importanceOf_pos (hd : g.ids.Nodup) {n : Node} (hn : n ∈ g.nodes) :
    0 < g.importanceOf n := by
  have hmem : g.importanceOf n ∈ (g.usualImportance : List (String × ℚ)).map (·.2) :=
    map_importanceOf hd ▸ List.mem_map_of_mem hn
  obtain ⟨p, hp, hvalue⟩ := List.mem_map.mp hmem
  have hdamping : (usualDamping : ℚ) = 85 / 100 := by norm_num [usualDamping, Arith.ratio]
  have hcount : (0 : ℚ) < g.ids.length := by
    exact_mod_cast List.length_pos_of_mem (List.mem_map_of_mem hn)
  have hleast : (1 - usualDamping : ℚ) / g.ids.length ≤ p.2 :=
    le_importanceRound hd (by rw [hdamping]; norm_num)
      (importanceAfter_nonneg hd (by rw [hdamping]; norm_num) (by rw [hdamping]; norm_num) 19) p hp
  rw [← hvalue]
  refine lt_of_lt_of_le (div_pos ?_ hcount) hleast
  rw [hdamping]
  norm_num

theorem exists_heaviest (hne : g.nodes ≠ []) (hd : g.ids.Nodup) :
    ∃ top ∈ g.nodes, (∀ n ∈ g.nodes, g.importanceOf n ≤ g.importanceOf top) ∧
      Arith.maxWithZero ((g.usualImportance : List (String × ℚ)).map (·.2)) =
        g.importanceOf top := by
  rw [← map_importanceOf hd, Arith.maxWithZero_rat]
  obtain ⟨hmem, hall⟩ := isGreatest_foldl_max (g.nodes.map g.importanceOf) 0
  have hleast : ∀ n ∈ g.nodes, g.importanceOf n ≤ (g.nodes.map g.importanceOf).foldl max 0 :=
    fun n hn => hall (List.mem_cons_of_mem 0 (List.mem_map_of_mem hn))
  obtain ⟨n, hn⟩ := List.exists_mem_of_ne_nil g.nodes hne
  rcases List.mem_cons.mp hmem with hzero | hmem
  · have hle := hleast n hn
    rw [hzero] at hle
    exact absurd hle (not_le.mpr (importanceOf_pos hd hn))
  · obtain ⟨top, htop, hvalue⟩ := List.mem_map.mp hmem
    exact ⟨top, htop, fun n hn => hvalue ▸ hleast n hn, hvalue.symm⟩

/-- **The scores** are the importance in percent of the highest, with two places. -/
theorem exists_impactScores (hne : g.nodes ≠ []) (hd : g.ids.Nodup) :
    ∃ scores : List (String × ℚ), g.impactScores = some scores ∧ scores.map (·.1) = g.ids ∧
      ∃ top ∈ g.nodes, (∀ n ∈ g.nodes, g.importanceOf n ≤ g.importanceOf top) ∧ ∀ n : Node,
        scoreOf scores n.id =
          Rational.roundPlaces 2 (g.importanceOf n / g.importanceOf top * 100) := by
  obtain ⟨top, htop, hall, hhighest⟩ := exists_heaviest hne hd
  have hzero : Rational.roundPlaces 2 (0 / g.importanceOf top * 100) = 0 := by
    rw [zero_div, zero_mul]
    exact Rational.roundPlaces_natCast 2 0
  refine ⟨(g.usualImportance : List (String × ℚ)).map fun p =>
    (p.1, Rational.roundPlaces 2 (p.2 / g.importanceOf top * 100)), ?_, ?_, top, htop, hall,
    fun n => ?_⟩
  · unfold impactScores
    dsimp only
    rw [hhighest]
    exact if_pos (importanceOf_pos hd htop)
  · rw [List.map_map, ← map_fst_usualImportance hd]
    rfl
  · exact scoreOf_map (F := fun x => Rational.roundPlaces 2 (x / g.importanceOf top * 100)) hzero _
      n.id

/-! ## What is kept -/

/-- What is left of a graph without some of its nodes. -/
structure Remains (rest g : Graph) : Prop where
  nodes : ∃ keeps : Node → Bool, rest.nodes = (g.nodes.filter keeps).map fun n =>
    { n with children := n.children.filter rest.ids.contains }
  edges : rest.edges.Sublist g.edges

theorem keeping_remains (g : Graph) (keeps : Node → Bool) (edgeKinds : List String) :
    (g.keeping keeps edgeKinds).Remains g where
  nodes := ⟨keeps, by rw [ids_keeping]; rfl⟩
  edges := List.filter_sublist

section Keeping

variable {low high : Node → Bool}

theorem filter_filter_of_imp {α : Type} {low high : α → Bool}
    (hle : ∀ x, high x = true → low x = true) (xs : List α) :
    (xs.filter low).filter high = xs.filter high := by
  rw [List.filter_filter]
  refine List.filter_congr fun x _ => ?_
  rw [Bool.and_eq_left_iff_imp]
  exact hle x

/-- **What is kept in two steps** is what the stricter one keeps. -/
theorem keeping_keeping (g : Graph) (hle : ∀ n, high n = true → low n = true)
    (hchildren : ∀ (n : Node) (children : List String), high { n with children } = high n)
    (edgeKinds : List String) :
    (g.keeping low edgeKinds).keeping high edgeKinds = g.keeping high edgeKinds := by
  have hids : ∀ id, ((g.nodes.filter high).map (·.id)).contains id = true →
      ((g.nodes.filter low).map (·.id)).contains id = true := by
    intro id hid
    rw [List.contains_iff_mem] at hid ⊢
    rw [← filter_filter_of_imp hle] at hid
    exact (List.filter_sublist.map _).subset hid
  have hkept : (g.keeping low edgeKinds).nodes.filter high =
      (g.nodes.filter high).map fun n =>
        { n with children := n.children.filter ((g.nodes.filter low).map (·.id)).contains } := by
    rw [keeping, List.filter_map, ← filter_filter_of_imp hle]
    simp only [Function.comp_def, hchildren]
  have hbetween (e : Edge) (he : (((g.nodes.filter high).map (·.id)).contains e.source &&
      ((g.nodes.filter high).map (·.id)).contains e.target && edgeKinds.contains e.kind) = true) :
      (((g.nodes.filter low).map (·.id)).contains e.source &&
        ((g.nodes.filter low).map (·.id)).contains e.target && edgeKinds.contains e.kind) =
          true := by
    rw [Bool.and_eq_true, Bool.and_eq_true] at he ⊢
    exact ⟨⟨hids _ he.1.1, hids _ he.1.2⟩, he.2⟩
  conv_lhs => rw [keeping]
  simp only [hkept, List.map_map, Function.comp_def, List.length_map]
  simp only [keeping, filter_filter_of_imp hids, filter_filter_of_imp hbetween]

end Keeping

section Threshold

variable {K : Type} [Arith K] {f : GraphFilter} {score : Node → K} {least : K}

theorem keepsScored_iff {n : Node} :
    f.keepsScored (some least) score n = true ↔
      n.kind ∈ f.nodeKinds ∧ least ≤ score n ∧ f.exposure.keeps n = true := by
  simp only [GraphFilter.keepsScored, Bool.and_eq_true, List.contains_iff_mem, Option.all_some,
    decide_eq_true_eq, and_assoc]

/-- **A higher least score** leaves the rest of what a lower one keeps. -/
theorem keeping_remains_of_le (g : Graph) {low high : K}
    (hle : ∀ n, high ≤ score n → low ≤ score n)
    (hscore : ∀ (n : Node) (children : List String), score { n with children } = score n) :
    (g.keeping (f.keepsScored (some high) score) f.edgeKinds).Remains
      (g.keeping (f.keepsScored (some low) score) f.edgeKinds) := by
  have hlow : ∀ n, f.keepsScored (some high) score n = true →
      f.keepsScored (some low) score n = true := by
    intro n hn
    rw [keepsScored_iff] at hn ⊢
    exact ⟨hn.1, hle n hn.2.1, hn.2.2⟩
  have hsame : ∀ (n : Node) (children : List String),
      f.keepsScored (some high) score { n with children } = f.keepsScored (some high) score n := by
    intro n children
    cases hx : f.exposure <;> simp [GraphFilter.keepsScored, Exposure.keeps, hx, hscore]
  rw [← g.keeping_keeping hlow hsame]
  exact keeping_remains _ _ _

end Threshold

/-- The part of a graph that a filter keeps, its nodes having at least some score. -/
def reaching (g : Graph) (f : GraphFilter) (scores : List (String × ℚ)) (least : ℚ) : Graph :=
  g.keeping (f.keepsScored (some least) fun n => scoreOf scores n.id) f.edgeKinds

theorem mem_reaching_iff {f : GraphFilter} {scores : List (String × ℚ)} {least : ℚ} {id : String} :
    id ∈ (g.reaching f scores least).ids ↔ ∃ n ∈ g.nodes, n.id = id ∧ n.kind ∈ f.nodeKinds ∧
      least ≤ scoreOf scores id ∧ f.exposure.keeps n = true := by
  simp only [reaching, ids_keeping, List.mem_map, List.mem_filter, keepsScored_iff]
  constructor
  · rintro ⟨n, ⟨hn, hkept⟩, rfl⟩
    exact ⟨n, hn, rfl, hkept⟩
  · rintro ⟨n, hn, rfl, hkept⟩
    exact ⟨n, ⟨hn, hkept⟩, rfl⟩

/-- **Scores are scaled to a hundred.** Each node has its importance in percent of the highest, with
two places, and more important nodes have no lower scores. A higher least score leaves a part of
what a lower one leaves. -/
theorem impactScores_scaled (g : Graph) (hne : g.nodes ≠ []) (hd : g.ids.Nodup) :
    ∃ scores : List (String × ℚ), g.impactScores = some scores ∧ scores.map (·.1) = g.ids ∧
      (∀ n ∈ g.nodes, 0 ≤ scoreOf scores n.id ∧ scoreOf scores n.id ≤ 100 ∧
        ∃ k : ℕ, scoreOf scores n.id = k / 100) ∧
      (∃ top ∈ g.nodes, scoreOf scores top.id = 100 ∧ ∀ n ∈ g.nodes,
        |scoreOf scores n.id - g.importanceOf n / g.importanceOf top * 100| ≤ 1 / 200) ∧
      (∀ a ∈ g.nodes, ∀ b ∈ g.nodes, g.importanceOf a ≤ g.importanceOf b →
        scoreOf scores a.id ≤ scoreOf scores b.id) ∧
      (∀ f : GraphFilter, f.exposure = .all → (∀ n ∈ g.nodes, n.kind ∈ f.nodeKinds) →
        ∀ least ≤ (100 : ℚ), (g.reaching f scores least).nodes ≠ []) ∧
      (∀ (f : GraphFilter) (low high : ℚ), low ≤ high →
        (g.reaching f scores high).Remains (g.reaching f scores low) ∧
        ∀ id, id ∈ (g.reaching f scores high).ids ↔
          id ∈ (g.reaching f scores low).ids ∧ high ≤ scoreOf scores id) ∧
      ∀ (f : GraphFilter) (low high : Amount), high.atLeast low = true →
        (g.scored.filtered { f with threshold := some high }).Remains
          (g.scored.filtered { f with threshold := some low }) := by
  obtain ⟨scores, hscores, hids, top, htop, hall, hvalue⟩ := exists_impactScores hne hd
  have htop' := importanceOf_pos hd htop
  have hshare : ∀ n ∈ g.nodes, 0 ≤ g.importanceOf n / g.importanceOf top * 100 := fun n hn =>
    mul_nonneg (div_nonneg (importanceOf_pos hd hn).le htop'.le) (by norm_num)
  have hmono : ∀ a ∈ g.nodes, ∀ b : Node, g.importanceOf a ≤ g.importanceOf b →
      scoreOf scores a.id ≤ scoreOf scores b.id := by
    intro a ha b hab
    rw [hvalue, hvalue]
    exact Rational.roundPlaces_mono 2 (hshare a ha) (by gcongr)
  have hhundred : scoreOf scores top.id = 100 := by
    rw [hvalue, div_self htop'.ne', one_mul]
    exact Rational.roundPlaces_natCast 2 100
  refine ⟨scores, hscores, hids, fun n hn => ⟨?_, ?_, ?_⟩, ⟨top, htop, hhundred, fun n hn => ?_⟩,
    fun a ha b _ => hmono a ha b, fun f hexposure hkinds least hleast => ?_,
    fun f low high hle => ⟨?_, fun id => ?_⟩, fun f low high hle => ?_⟩
  · have hzero : Rational.roundPlaces 2 0 = 0 := Rational.roundPlaces_natCast 2 0
    rw [hvalue, ← hzero]
    exact Rational.roundPlaces_mono 2 le_rfl (hshare n hn)
  · rw [← hhundred]
    exact hmono n hn top (hall n hn)
  · rw [hvalue, Rational.roundPlaces_of_nonneg 2 (hshare n hn)]
    exact ⟨_, rfl⟩
  · rw [hvalue]
    refine (Rational.abs_roundPlaces_sub_le 2 (hshare n hn)).trans_eq ?_
    norm_num
  · have hmem : top.id ∈ (g.reaching f scores least).ids :=
      mem_reaching_iff.mpr ⟨top, htop, rfl, hkinds top htop, hhundred.symm ▸ hleast,
        by rw [hexposure]; rfl⟩
    intro hnil
    rw [ids, hnil] at hmem
    cases hmem
  · exact g.keeping_remains_of_le (fun n hn => hle.trans hn) fun _ _ => rfl
  · rw [mem_reaching_iff, mem_reaching_iff]
    constructor
    · rintro ⟨n, hn, hid, hkind, hreached, hexposed⟩
      exact ⟨⟨n, hn, hid, hkind, hle.trans hreached, hexposed⟩, hreached⟩
    · rintro ⟨⟨n, hn, hid, hkind, -, hexposed⟩, hreached⟩
      exact ⟨n, hn, hid, hkind, hreached, hexposed⟩
  · have hraise : ∀ n : Node, high.computed ≤ n.metrics.impactScore.computed →
        low.computed ≤ n.metrics.impactScore.computed := fun n hn => Amount.atLeast_trans hn hle
    exact g.scored.keeping_remains_of_le hraise fun _ _ => rfl

theorem impactScores_scaled_fork :
    ∃ scores : List (String × ℚ), fork.impactScores = some scores ∧
      scores.map (·.1) = ["a", "b", "c"] ∧ (fork.reaching {} scores 100).nodes ≠ [] ∧
      (fork.reaching {} scores 100).Remains (fork.reaching {} scores (1 / 2)) ∧
      (fork.scored.filtered { threshold := some (.whole 70) }).Remains
        (fork.scored.filtered { threshold := some (.real 0.5) }) := by
  obtain ⟨scores, hscores, hids, -, -, -, hsome, hraise, hraise'⟩ :=
    impactScores_scaled fork (by simp [fork]) (by decide)
  have hkinds : ∀ n ∈ fork.nodes, n.kind ∈ ({} : GraphFilter).nodeKinds := by
    simp [fork]
  exact ⟨scores, hscores, hids, hsome {} rfl hkinds 100 le_rfl,
    (hraise {} (1 / 2) 100 (by norm_num)).1, hraise' {} (.real 0.5) (.whole 70) (by decide +kernel)⟩

end Graph

end CodeAtlas
