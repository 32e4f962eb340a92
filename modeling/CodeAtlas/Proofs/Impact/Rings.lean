import CodeAtlas.Impact.Ripple
import CodeAtlas.Proofs.Impact.Ranking
import CodeAtlas.Proofs.Layout.Computable
import CodeAtlas.Proofs.Number.Comparing
import CodeAtlas.Proofs.Number.Overflow
import CodeAtlas.Proofs.Number.Quotient

/-!
# Impacts on rings

The impacts that are drawn are divided among rings by their depths. The places on a ring are real
numbers, so a ring whose depth is beyond all of them cannot be drawn.

* **`flatMap_groups`**: groups in the order of their keys are a stable sort.
* **`checked_rippleOf_iff`**: the ripples that can be computed.
* **`impacts_divided_among_rings`**: ripples of reports, and of what an inquiry finds.
-/

namespace CodeAtlas

/-! ## Groups -/

section Groups

variable {α : Type} {key : α → Int} {xs ys : List α}

theorem eq_of_groups (hxs : xs.Pairwise fun a b => key a ≤ key b)
    (hys : ys.Pairwise fun a b => key a ≤ key b)
    (h : ∀ d, xs.filter (key · == d) = ys.filter (key · == d)) : xs = ys := by
  have hmem : ∀ {us vs : List α}, (∀ d, us.filter (key · == d) = vs.filter (key · == d)) →
      ∀ a ∈ us, a ∈ vs := by
    intro us vs huv a ha
    have hgroup : a ∈ us.filter (key · == key a) := by simp [ha]
    rw [huv] at hgroup
    exact List.mem_of_mem_filter hgroup
  induction xs generalizing ys with
  | nil =>
    refine (List.eq_nil_iff_forall_not_mem.mpr fun y hy => ?_).symm
    exact absurd (hmem (fun d => (h d).symm) y hy) List.not_mem_nil
  | cons x xs ih =>
    cases ys with
    | nil => exact absurd (hmem h x List.mem_cons_self) List.not_mem_nil
    | cons y ys =>
      rw [List.pairwise_cons] at hxs hys
      -- the first items have the least key, so they are first in the same group
      have hle : key x ≤ key y := by
        rcases List.mem_cons.mp (hmem (fun d => (h d).symm) y List.mem_cons_self) with heq | hy
        · rw [heq]
        · exact hxs.1 y hy
      have hge : key y ≤ key x := by
        rcases List.mem_cons.mp (hmem h x List.mem_cons_self) with heq | hx
        · rw [heq]
        · exact hys.1 x hx
      have hkey : key y = key x := le_antisymm hge hle
      have hfirst := h (key x)
      simp only [List.filter_cons, hkey, beq_self_eq_true, if_true, List.cons.injEq] at hfirst
      obtain ⟨rfl, htail⟩ := hfirst
      congr 1
      refine ih hxs.2 hys.2 fun d => ?_
      by_cases hd : key x = d
      · rw [← hd]
        exact htail
      · simpa [List.filter_cons, hd] using h d

variable (key)

theorem pairwise_mergeSort_key (l : List α) :
    (l.mergeSort fun a b => decide (key a ≤ key b)).Pairwise fun a b => key a ≤ key b := by
  refine (List.pairwise_mergeSort ?_ ?_ l).imp of_decide_eq_true
  · intro a b c
    simp only [decide_eq_true_eq]
    omega
  · intro a b
    simp only [Bool.or_eq_true, decide_eq_true_eq]
    omega

theorem filter_mergeSort_key (l : List α) (d : Int) :
    (l.mergeSort fun a b => decide (key a ≤ key b)).filter (key · == d) =
      l.filter (key · == d) := by
  by_cases hd : ∃ x ∈ l, key x = d
  · obtain ⟨x, hx, rfl⟩ := hd
    have hlevel : ∀ y, (key y == key x) =
        (decide (key x ≤ key y) && decide (key y ≤ key x)) := by
      intro y
      rw [Bool.eq_iff_iff]
      simp
      omega
    simp only [hlevel]
    apply filter_mergeSort_of_mem _ _ hx
    · intro a _ b _ c _
      simp only [decide_eq_true_eq]
      omega
    · intro a _ b _
      simp only [Bool.or_eq_true, decide_eq_true_eq]
      omega
  · have hnone : ∀ x ∈ l, ¬ (key x == d) = true := by
      intro x hx h
      exact hd ⟨x, hx, by simpa using h⟩
    rw [List.filter_eq_nil_iff.mpr hnone, List.filter_eq_nil_iff]
    intro x hx
    exact hnone x (List.mem_mergeSort.mp hx)

theorem rising_keys (ds : List Int) :
    (ds.eraseDups.mergeSort fun d e => decide (d ≤ e)).Pairwise (· < ·) := by
  have hnodup := (List.mergeSort_perm ds.eraseDups fun d e => decide (d ≤ e)).nodup_iff.mpr
    (nodup_eraseDups ds)
  exact (pairwise_mergeSort_key id ds.eraseDups).imp₂ (fun _ _ => lt_of_le_of_ne) hnodup

theorem flatMap_ite_eq {ds : List Int} (h : ds.Nodup) (d : Int) (l : List α) :
    (ds.flatMap fun e => if e = d then l else []) = if d ∈ ds then l else [] := by
  induction ds with
  | nil => rfl
  | cons e ds ih =>
    rw [List.nodup_cons] at h
    rw [List.flatMap_cons, ih h.2]
    by_cases he : e = d
    · simp [he, he ▸ h.1]
    · simp [he, Ne.symm he]

/-- The groups of a list in the order of keys are the list sorted by key, stably. -/
theorem flatMap_groups (l : List α) :
    (((l.map key).eraseDups.mergeSort fun d e => decide (d ≤ e)).flatMap
      fun d => l.filter (key · == d)) = l.mergeSort fun a b => decide (key a ≤ key b) := by
  have hrising := rising_keys (l.map key)
  refine eq_of_groups ?_ (pairwise_mergeSort_key key l) fun d => ?_
  · rw [List.pairwise_flatMap]
    constructor
    · intro d _
      refine List.pairwise_of_forall_mem_list fun a ha b hb => ?_
      simp only [List.mem_filter, beq_iff_eq] at ha hb
      omega
    · refine hrising.imp fun {d e} hlt a ha b hb => ?_
      simp only [List.mem_filter, beq_iff_eq] at ha hb
      omega
  · rw [filter_mergeSort_key, List.filter_flatMap]
    -- of the groups only the one with the key `d` is left
    have hgroup : ∀ e, (l.filter (key · == e)).filter (key · == d) =
        if e = d then l.filter (key · == d) else [] := by
      intro e
      rw [List.filter_filter]
      split_ifs with he
      · simp [he]
      · refine List.filter_eq_nil_iff.mpr fun a _ h => he ?_
        simp only [Bool.and_eq_true, beq_iff_eq] at h
        omega
    simp only [hgroup]
    rw [flatMap_ite_eq (hrising.imp ne_of_lt)]
    split_ifs with hd
    · rfl
    · refine (List.filter_eq_nil_iff.mpr fun a ha h => hd ?_).symm
      rw [beq_iff_eq] at h
      simp only [List.mem_mergeSort, List.mem_eraseDups, List.mem_map]
      exact ⟨a, ha, h⟩

end Groups

section Pairs

variable {α β γ : Type} {R : α → β → Prop}

theorem exists_of_mem_forall₂ {xs : List α} {ys : List β} (h : List.Forall₂ R xs ys) {a : α}
    (ha : a ∈ xs) : ∃ b ∈ ys, R a b := by
  induction h with
  | nil => cases ha
  | @cons x y xs ys hxy _ ih =>
    rcases List.mem_cons.mp ha with rfl | ha
    · exact ⟨y, List.mem_cons_self, hxy⟩
    · obtain ⟨b, hb, hab⟩ := ih ha
      exact ⟨b, List.mem_cons_of_mem y hb, hab⟩

theorem forall₂_flatMap {f : γ → List α} {g : γ → List β} (h : ∀ c, List.Forall₂ R (f c) (g c))
    (l : List γ) : List.Forall₂ R (l.flatMap f) (l.flatMap g) := by
  induction l with
  | nil => exact .nil
  | cons c l ih => exact List.rel_append (h c) ih

end Pairs

/-! ## Severities -/

def severityRank (severity : String) : Nat := rippleSeverities.idxOf severity

theorem severityOf_mem (level : String) : severityOf level ∈ rippleSeverities := by
  unfold severityOf
  split_ifs with h
  · have hall : ∀ l ∈ impactLevels, Text.lower l ∈ rippleSeverities := by decide +kernel
    exact hall level (List.contains_iff_mem.mp h)
  · decide

variable {severities : List String} {o : RippleOptions Computed} {c : Computed}
  {r : ImpactReport Computed}

/-- **The worst of severities** is one of them, and none of them is worse. -/
theorem worstSeverity_spec (hne : severities ≠ []) (h : ∀ s ∈ severities, s ∈ rippleSeverities) :
    worstSeverity severities ∈ severities ∧
      ∀ s ∈ severities, severityRank (worstSeverity severities) ≤ severityRank s := by
  obtain ⟨s, hs⟩ := List.exists_mem_of_ne_nil _ hne
  have hfound : (rippleSeverities.find? severities.contains).isSome = true :=
    List.find?_isSome.mpr ⟨s, h s hs, List.contains_iff_mem.mpr hs⟩
  obtain ⟨worst, hworst⟩ := Option.isSome_iff_exists.mp hfound
  obtain ⟨hmem, front, back, hsplit, hfront⟩ := List.find?_eq_some_iff_append.mp hworst
  -- what stands before the worst one is not among the severities
  have hrank : ∀ t ∈ severities, severityRank t = front.length + (worst :: back).idxOf t := by
    intro t ht
    rw [severityRank, hsplit, List.idxOf_append_of_notMem]
    intro hin
    have := hfront t hin
    simp [ht] at this
  have hin := List.contains_iff_mem.mp hmem
  rw [worstSeverity, hworst]
  refine ⟨hin, fun t ht => ?_⟩
  change severityRank worst ≤ severityRank t
  rw [hrank worst hin, hrank t ht, List.idxOf_cons_self]
  omega

theorem count_severities (h : ∀ s ∈ severities, s ∈ ["critical", "high", "medium", "low"]) :
    severities.count "critical" + severities.count "high" + severities.count "medium" +
      severities.count "low" = severities.length := by
  induction severities with
  | nil => rfl
  | cons s severities ih =>
    obtain ⟨hs, hrest⟩ := List.forall_mem_cons.mp h
    have hone : ∀ s ∈ ["critical", "high", "medium", "low"],
        [s].count "critical" + [s].count "high" + [s].count "medium" + [s].count "low" = 1 := by
      decide
    have hcons : ∀ t, (s :: severities).count t = [s].count t + severities.count t := by
      intro t
      rw [← List.count_append]
      rfl
    have := hone s hs
    have := ih hrest
    simp only [hcons, List.length_cons]
    omega

/-! ## Rings -/

section Rings

variable {K : Type} [Geometry K]

structure RippleNode.Shows (n : RippleNode K) (i : Impact K) : Prop where
  id : n.id = "ripple-" ++ intText i.depth ++ "-" ++ i.file ++ "-" ++ i.symbol
  name : n.name = i.symbol
  file : n.file = i.file
  depth : n.depth = i.depth
  severity : n.severity = severityOf i.level
  score : n.score = i.score
  usageCount : n.usageCount = i.usages.length
  usageKinds : n.usageKinds = (i.usages.filterMap fun u => usageEdge? u.kind).eraseDups

/-- The rings divide the impacts among them. -/
structure Ripple.Divides (rings : Ripple K) (kept : List (Impact K)) : Prop where
  filled : ∀ l ∈ rings.layers, l.nodes ≠ []
  rising : (rings.layers.map (·.depth)).Pairwise (· < ·)
  placed : ∀ l ∈ rings.layers, ∀ n ∈ l.nodes, n.depth = l.depth
  shown : List.Forall₂ RippleNode.Shows (rings.layers.flatMap (·.nodes))
    (kept.mergeSort fun i j => decide (i.depth ≤ j.depth))
  worst : ∀ l ∈ rings.layers, l.severity ∈ l.nodes.map (·.severity) ∧
    ∀ n ∈ l.nodes, severityRank l.severity ≤ severityRank n.severity
  total : rings.total = kept.length
  counted : (∀ i ∈ kept, i.level ∈ impactLevels) →
    rings.countOf "critical" + rings.countOf "high" + rings.countOf "medium" +
      rings.countOf "low" = rings.total

variable (depth : Int) {o : RippleOptions K} (impacts : List (Impact K))

theorem shows_rippleLayer :
    List.Forall₂ RippleNode.Shows (rippleLayer depth impacts).nodes impacts := by
  have hnode : ∀ (i : Impact K) (count place : Nat), (rippleNode i count place).Shows i := by
    intro i count place
    constructor <;> rfl
  dsimp only [rippleLayer]
  generalize impacts.length = count
  generalize 0 = k
  induction impacts generalizing k with
  | nil => exact .nil
  | cons i impacts ih => exact .cons (hnode i count k) (ih (k + 1))

omit [Geometry K] in
theorem map_eq_of_shows {α : Type} (f : RippleNode K → α) (g : Impact K → α)
    (hfg : ∀ n i, n.Shows i → f n = g i) {nodes : List (RippleNode K)} {impacts : List (Impact K)}
    (h : List.Forall₂ RippleNode.Shows nodes impacts) : nodes.map f = impacts.map g := by
  induction h with
  | nil => rfl
  | cons hshows _ ih => rw [List.map_cons, List.map_cons, ih, hfg _ _ hshows]

theorem map_severity_rippleLayer :
    (rippleLayer depth impacts).nodes.map (·.severity) =
      impacts.map fun i => severityOf i.level :=
  map_eq_of_shows _ _ (fun _ _ h => h.severity) (shows_rippleLayer depth impacts)

theorem mem_layers_rippleOf {r : ImpactReport K} {l : RippleLayer K} :
    l ∈ (rippleOf o r).layers ↔ ∃ i ∈ r.impacts.filter o.draws,
      l = rippleLayer i.depth ((r.impacts.filter o.draws).filter (·.depth == i.depth)) := by
  unfold rippleOf
  simp only [List.mem_map, List.mem_mergeSort, List.mem_eraseDups]
  constructor
  · rintro ⟨d, ⟨i, hi, rfl⟩, rfl⟩
    exact ⟨i, hi, rfl⟩
  · rintro ⟨i, hi, rfl⟩
    exact ⟨i.depth, ⟨i, hi, rfl⟩, rfl⟩

theorem shows_rippleOf (o : RippleOptions K) (r : ImpactReport K) :
    List.Forall₂ RippleNode.Shows ((rippleOf o r).layers.flatMap (·.nodes))
      ((r.impacts.filter o.draws).mergeSort fun i j => decide (i.depth ≤ j.depth)) := by
  unfold rippleOf
  dsimp only
  generalize r.impacts.filter o.draws = kept
  rw [List.flatMap_map, ← flatMap_groups Impact.depth kept]
  exact forall₂_flatMap (fun d => shows_rippleLayer d (kept.filter (·.depth == d))) _

/-- **The rings of a report divide the impacts** that are drawn. -/
theorem divides_rippleOf (o : RippleOptions K) (r : ImpactReport K) :
    (rippleOf o r).Divides (r.impacts.filter o.draws) := by
  have hshown := shows_rippleOf o r
  refine ⟨fun l hl => ?_, ?_, fun l hl n hn => ?_, hshown, fun l hl => ?_, ?_, fun hlevels => ?_⟩
  · obtain ⟨i, hi, rfl⟩ := mem_layers_rippleOf.mp hl
    intro hnil
    have hshows := shows_rippleLayer i.depth
      ((r.impacts.filter o.draws).filter (·.depth == i.depth))
    rw [hnil, List.forall₂_nil_left_iff, List.filter_eq_nil_iff] at hshows
    exact hshows i hi (beq_self_eq_true i.depth)
  · unfold rippleOf
    dsimp only
    rw [List.map_map]
    exact (rising_keys _).map _ fun _ _ h => h
  · obtain ⟨i, -, rfl⟩ := mem_layers_rippleOf.mp hl
    obtain ⟨j, hj, hshows⟩ := exists_of_mem_forall₂ (shows_rippleLayer i.depth _) hn
    exact hshows.depth.trans (eq_of_beq (List.mem_filter.mp hj).2)
  · obtain ⟨i, hi, rfl⟩ := mem_layers_rippleOf.mp hl
    generalize hgroup : (r.impacts.filter o.draws).filter (·.depth == i.depth) = group
    have hne : group ≠ [] := by
      rw [← hgroup, ne_eq, List.filter_eq_nil_iff]
      exact fun h => h i hi (beq_self_eq_true i.depth)
    have hsome : ∀ s ∈ group.map fun i => severityOf i.level, s ∈ rippleSeverities := by
      simp only [List.mem_map, forall_exists_index, and_imp, forall_apply_eq_imp_iff₂]
      exact fun i _ => severityOf_mem i.level
    obtain ⟨hmem, hworst⟩ := worstSeverity_spec (mt List.map_eq_nil_iff.mp hne) hsome
    rw [map_severity_rippleLayer]
    refine ⟨hmem, fun n hn => hworst _ ?_⟩
    rw [← map_severity_rippleLayer i.depth]
    exact List.mem_map_of_mem hn
  · rw [Ripple.total, hshown.length_eq, List.length_mergeSort]
  · have hsome : ∀ l ∈ impactLevels, severityOf l ∈ ["critical", "high", "medium", "low"] := by
      decide +kernel
    have hcount : ∀ s, (rippleOf o r).countOf s =
        (((rippleOf o r).layers.flatMap (·.nodes)).map (·.severity)).count s := by
      intro s
      rw [List.count, List.countP_map]
      rfl
    rw [hcount, hcount, hcount, hcount, count_severities]
    · rw [List.length_map]
      rfl
    · intro s hs
      obtain ⟨n, hn, rfl⟩ := List.mem_map.mp hs
      obtain ⟨i, hi, hshows⟩ := exists_of_mem_forall₂ hshown hn
      rw [hshows.severity]
      exact hsome _ (hlevels i (List.mem_mergeSort.mp hi))

/-- What an impact must have to be drawn. -/
structure RippleOptions.Admits (o : RippleOptions K) (i : Impact K) : Prop where
  file : o.includeTests = true ∨ isTestFile i.file = false
  score : ¬ i.score < o.minimumScore
  depth : i.depth ≤ o.maxDepth

theorem draws_iff {i : Impact K} : o.draws i = true ↔ o.Admits i := by
  unfold RippleOptions.draws
  simp only [Bool.and_eq_true, Bool.or_eq_true, Bool.not_eq_true', decide_eq_false_iff_not,
    decide_eq_true_eq]
  exact ⟨fun h => ⟨h.1.1, h.1.2, h.2⟩, fun h => ⟨⟨h.file, h.score⟩, h.depth⟩⟩

end Rings

/-! ## Ripples that can be computed -/

open Computed Float.Model Float.Model.UnpackedFloat

namespace Computed

def IsNumber (c : Computed) : Prop := ∃ a, c.amount = .ok a

variable {c : Computed} {cs : List Computed}

theorem IsReal.isNumber (h : IsReal c) : IsNumber c := by
  obtain ⟨x, rfl⟩ := h
  exact ⟨.real x, rfl⟩

theorem asReal_eq_ite (f : Float → Computed) (n : Int) :
    asReal f n = if beyondReal ≤ n.natAbs then .broken .tooLarge else f (nearestWhole n) := by
  unfold asReal
  simp only [nearestWhole_isInf_iff]

theorem real_mul_nat (x : Float) {n : Nat} (hn : n < 2 ^ 200) :
    .real x * Arith.nat n = (.real (x * nearestWhole n) : Computed) :=
  asReal_eq (n := n) (by omega) fun y => .real (x * y)

theorem isReal_foldl_add (h : ∀ c ∈ cs, IsReal c) {start : Computed} (hstart : IsReal start) :
    IsReal (cs.foldl (· + ·) start) := by
  induction cs generalizing start with
  | nil => exact hstart
  | cons c cs ih =>
    obtain ⟨hc, hcs⟩ := List.forall_mem_cons.mp h
    exact ih hcs (hstart.tame.add hc.tame (Or.inl hstart))

theorem isReal_sum (hne : cs ≠ []) (h : ∀ c ∈ cs, IsReal c) :
    IsReal (Arith.sum cs) := by
  cases cs with
  | nil => exact absurd rfl hne
  | cons c cs =>
    obtain ⟨hc, hcs⟩ := List.forall_mem_cons.mp h
    have hzero : Tame (Arith.int 0) := .whole (by decide)
    exact isReal_foldl_add hcs (hzero.add hc.tame (Or.inr hc))

theorem IsReal.round (h : IsReal c) (places : Nat) :
    IsReal (Arith.round places c) := by
  obtain ⟨x, rfl⟩ := h
  exact ⟨_, rfl⟩

end Computed

theorem ringAngle_not_isInf {place count : Nat} (hplace : place < count)
    (hcount : count < exactLimit) :
    (nearestWhole 2 * halfTurn * nearestWhole place / nearestWhole count -
      halfTurn / nearestWhole 2).isInf = false := by
  have hpos : 0 < count := Nat.zero_lt_of_lt hplace
  have hturn := sized_two.mul sized_halfTurn (by decide) (by decide)
  have hcount' := sized_nearestWhole hpos hcount
  have hlog := log2_le_of_lt hpos hcount
  refine AtMostSized.sub_not_isInf ?_ sized_quarterTurn
  rcases Nat.eq_zero_or_pos place with rfl | hplace'
  · have hzero : (nearestWhole (0 : Nat)).toModel.unpack = .zero .positive := rfl
    obtain ⟨m, e, hm, hm', -, -⟩ := hturn
    obtain ⟨n, f, hn, hn', -, -⟩ := hcount'
    exact Or.inl ⟨_, by rw [unpack_div, unpack_mul, hm', hzero, UnpackedFloat.mul,
      unpack_pack_zero, hn', UnpackedFloat.div, unpack_pack_zero]⟩
  · have hlog' := log2_le_of_lt hplace' (hplace.trans hcount)
    have hproduct := hturn.mul (sized_nearestWhole hplace' (hplace.trans hcount)) (by omega)
      (by omega)
    exact Or.inr ⟨_, _, (hproduct.div hcount' (by omega) (by omega)).mono le_rfl (by omega)⟩

/-- **The ring of a depth has a radius** unless the depth is beyond all real numbers. -/
theorem ringRadius_cases (depth : Int) :
    (depth - 1).natAbs < beyondReal ∧ IsReal (ringRadius depth) ∨
      beyondReal ≤ (depth - 1).natAbs ∧ ringRadius depth = (.broken .tooLarge : Computed) := by
  obtain ⟨x, hx⟩ : IsReal (Arith.real 100) := isReal_ratio (by decide) (by decide)
  obtain ⟨y, hy⟩ : IsReal (Arith.real 80) := isReal_ratio (by decide) (by decide)
  have hradius : ringRadius depth = .real x + asReal (fun z => .real (z * y)) (depth - 1) := by
    rw [ringRadius, hx, hy]
    rfl
  rw [hradius, asReal_eq_ite]
  by_cases h : beyondReal ≤ (depth - 1).natAbs
  · rw [if_pos h]
    exact Or.inr ⟨h, rfl⟩
  · rw [if_neg h]
    exact Or.inl ⟨Nat.lt_of_not_le h, _, rfl⟩

def RippleNode.numbers (n : RippleNode Computed) : List Computed := [n.radius, n.angle, n.x, n.y]

theorem isReal_rippleNode {i : Impact Computed} {count place : Nat} (hplace : place < count)
    (hcount : count < exactLimit) (hradius : IsReal (ringRadius i.depth)) :
    ∀ c ∈ (rippleNode i count place).numbers, IsReal c := by
  have hlimit : exactLimit = 2 ^ 53 := rfl
  have hangle : Arith.int 2 * Geometry.pi * Arith.nat place / Arith.nat count -
      Geometry.pi / Arith.int 2 = (.real (nearestWhole 2 * halfTurn * nearestWhole place /
        nearestWhole count - halfTurn / nearestWhole 2) : Computed) := by
    rw [wholeTurn_eq, quarterTurn_eq, real_mul_nat _ (by omega),
      real_div_nat _ (Nat.zero_lt_of_lt hplace) hcount]
    rfl
  obtain ⟨hcos, hsin⟩ := isReal_cos_sin (ringAngle_not_isInf hplace hcount)
  have hcentre : IsReal (Arith.real 400) := isReal_ratio (by decide) (by decide)
  have hx := hradius.tame.mul hcos.tame (Or.inl hradius)
  have hy := hradius.tame.mul hsin.tame (Or.inl hradius)
  simp only [RippleNode.numbers, rippleNode, hangle, List.forall_mem_cons, List.not_mem_nil,
    false_imp_iff, implies_true, and_true]
  exact ⟨hradius, ⟨_, rfl⟩, hcentre.tame.add hx.tame (Or.inl hcentre),
    hcentre.tame.add hy.tame (Or.inl hcentre)⟩

theorem checked_eq_ok_iff (r : Ripple Computed) :
    r.checked = .ok r ↔ ∀ c ∈ r.numbers, IsNumber c := by
  unfold Ripple.checked
  constructor
  · intro h c hc
    obtain ⟨amounts, hamounts, -⟩ := bind_eq_ok.mp h
    obtain ⟨a, -, ha⟩ := exists_of_mem_forall₂ (forall₂_of_mapM_ok hamounts) hc
    exact ⟨a, ha⟩
  · intro h
    obtain ⟨amounts, hamounts⟩ := exists_mapM h
    rw [hamounts]
    rfl

theorem mem_numbers {r : Ripple Computed} :
    c ∈ r.numbers ↔ ∃ l ∈ r.layers, c = l.total ∨ ∃ n ∈ l.nodes, c ∈ n.numbers := by
  simp only [Ripple.numbers, RippleNode.numbers, List.mem_flatMap, List.mem_cons]

theorem mem_nodes_rippleLayer {depth : Int} {impacts : List (Impact Computed)}
    {n : RippleNode Computed} : n ∈ (rippleLayer depth impacts).nodes ↔
      ∃ i place, impacts[place]? = some i ∧ n = rippleNode i impacts.length place := by
  simp only [rippleLayer, List.mem_map, Prod.exists, List.mk_mem_zipIdx_iff_getElem?, eq_comm]

/-- A ripple can be computed if its totals can and no depth is beyond all real numbers. -/
theorem checked_rippleOf_iff (hlength : r.impacts.length < exactLimit) :
    (rippleOf o r).checked = .ok (rippleOf o r) ↔
      (∀ l ∈ (rippleOf o r).layers, IsNumber l.total) ∧
      ∀ i ∈ r.impacts, o.draws i = true → (i.depth - 1).natAbs < beyondReal := by
  rw [checked_eq_ok_iff]
  constructor
  · intro h
    refine ⟨fun l hl => h _ (mem_numbers.mpr ⟨l, hl, Or.inl rfl⟩), fun i hi hdrawn => ?_⟩
    have hkept : i ∈ r.impacts.filter o.draws := List.mem_filter.mpr ⟨hi, hdrawn⟩
    have hring : i ∈ (r.impacts.filter o.draws).filter (·.depth == i.depth) :=
      List.mem_filter.mpr ⟨hkept, beq_self_eq_true i.depth⟩
    obtain ⟨place, hplace⟩ := List.mem_iff_getElem?.mp hring
    have hradius : IsNumber (ringRadius i.depth) := h _ (mem_numbers.mpr
      ⟨_, mem_layers_rippleOf.mpr ⟨i, hkept, rfl⟩, Or.inr
        ⟨_, mem_nodes_rippleLayer.mpr ⟨i, place, hplace, rfl⟩, List.mem_cons_self⟩⟩)
    rcases ringRadius_cases i.depth with ⟨hlt, -⟩ | ⟨-, hbroken⟩
    · exact hlt
    · rw [hbroken] at hradius
      obtain ⟨a, ha⟩ := hradius
      cases ha
  · rintro ⟨htotals, hdepths⟩ c hc
    obtain ⟨l, hl, rfl | ⟨n, hn, hc⟩⟩ := mem_numbers.mp hc
    · exact htotals l hl
    · obtain ⟨i, -, rfl⟩ := mem_layers_rippleOf.mp hl
      obtain ⟨j, place, hplace, rfl⟩ := mem_nodes_rippleLayer.mp hn
      obtain ⟨hlt, -⟩ := List.getElem?_eq_some_iff.mp hplace
      have hmem := List.mem_filter.mp (List.mem_filter.mp (List.mem_of_getElem? hplace)).1
      have hshort : ((r.impacts.filter o.draws).filter (·.depth == i.depth)).length <
          exactLimit :=
        ((List.length_filter_le _ _).trans (List.length_filter_le _ _)).trans_lt hlength
      rcases ringRadius_cases j.depth with ⟨-, hradius⟩ | ⟨hge, -⟩
      · exact (isReal_rippleNode hlt hshort hradius c hc).isNumber
      · exact absurd (hdepths j hmem.1 hmem.2) (Nat.not_lt.mpr hge)

theorem isNumber_total (hscores : ∀ i ∈ r.impacts, IsReal i.score) :
    ∀ l ∈ (rippleOf o r).layers, IsNumber l.total := by
  intro l hl
  obtain ⟨i, hi, rfl⟩ := mem_layers_rippleOf.mp hl
  refine ((isReal_sum ?_ ?_).round 2).isNumber
  · rw [ne_eq, List.map_eq_nil_iff, List.filter_eq_nil_iff]
    exact fun h => h i hi (beq_self_eq_true i.depth)
  · intro c hc
    obtain ⟨j, hj, rfl⟩ := List.mem_map.mp hc
    exact hscores j (List.mem_filter.mp (List.mem_filter.mp hj).1).1

/-! ## What an inquiry finds -/

theorem impactLevel_mem {K : Type} [Arith K] (score : K) (depth : Int) (path : String) :
    impactLevel score depth path ∈ impactLevels := by
  unfold impactLevel impactLevels
  split_ifs <;> simp

theorem Computed.Placed.isReal (h : c.Placed) : IsReal c ∧ c.Defined := by
  cases c with
  | real x =>
    refine ⟨⟨x, rfl⟩, ?_⟩
    change (placeOf x.toModel.unpack).isSome = true at h
    change UnpackedFloat.isNaN x.toModel.unpack = false
    cases hx : x.toModel.unpack with
    | notANumber =>
      rw [hx] at h
      cases h
    | _ => rfl
  | whole n => cases h
  | broken fault => cases h

/-- The impacts of an inquiry have levels that are counted, real scores and small depths. -/
theorem impacts_of_finds {w : Workspace} {repo : Path} {knowledge : KnowledgeSource}
    {symbol : String} {file : Option String} {before after : List Search}
    (h : Finds (w.impactOf Computed repo knowledge symbol file) before r after) :
    ∀ i ∈ r.impacts, i.level ∈ impactLevels ∧ (IsReal i.score ∧ i.score.Defined) ∧
      1 ≤ i.depth ∧ i.depth ≤ 3 := by
  obtain ⟨c, hc, hr⟩ := Workspace.exists_change h
  intro i hi
  rw [hr] at hi
  obtain ⟨a, ha, rfl⟩ := mem_rankImpacts.mp hi
  have hdepth := hc.toScanned.wellSpread.depth a ha
  refine ⟨impactLevel_mem _ _ _, (placed_score hdepth symbol).isReal, ?_⟩
  change 1 ≤ (a.depth : Int) ∧ (a.depth : Int) ≤ 3
  simp only [List.mem_cons, List.not_mem_nil, or_false] at hdepth
  omega

/-- **The impacts that are drawn are divided among rings** by depth. With real scores the ripple can
be computed unless a depth is beyond all real numbers. -/
theorem impacts_divided_among_rings (o : RippleOptions Computed) :
    (∀ i : Impact Computed, (o.draws i = true ↔ o.Admits i) ∧
      (i.score.Defined → o.minimumScore.Defined →
        (¬ i.score < o.minimumScore ↔ o.minimumScore ≤ i.score))) ∧
    (∀ r : ImpactReport Computed, (rippleOf o r).Divides (r.impacts.filter o.draws) ∧
      (r.impacts.length < exactLimit → (∀ i ∈ r.impacts, IsReal i.score) →
        ((rippleOf o r).checked = .ok (rippleOf o r) ↔
          ∀ i ∈ r.impacts, o.draws i = true → (i.depth - 1).natAbs < beyondReal))) ∧
    ∀ (w : Workspace) (repo : Path) (knowledge : KnowledgeSource) (symbol : String)
      (file : Option String) (before after : List Search) (r : ImpactReport Computed),
      Finds (w.impactOf Computed repo knowledge symbol file) before r after →
      (∀ i ∈ r.impacts, i.level ∈ impactLevels ∧ i.score.Defined) ∧
      (r.impacts.length < exactLimit → (rippleOf o r).checked = .ok (rippleOf o r)) := by
  refine ⟨fun i => ⟨draws_iff, not_lt_iff⟩,
    fun r => ⟨divides_rippleOf o r, fun hlength hscores => ?_⟩,
    fun w repo knowledge symbol file before after r h => ?_⟩
  · rw [checked_rippleOf_iff hlength]
    exact and_iff_right (isNumber_total hscores)
  · have hfound := impacts_of_finds h
    refine ⟨fun i hi => ⟨(hfound i hi).1, (hfound i hi).2.1.2⟩, fun hlength => ?_⟩
    rw [checked_rippleOf_iff hlength]
    refine ⟨isNumber_total fun i hi => (hfound i hi).2.1.1, fun i hi _ => ?_⟩
    obtain ⟨-, -, hone, hthree⟩ := hfound i hi
    have hfar : 3 < beyondReal := by decide +kernel
    omega

namespace Lone

def impact (score : Computed) (depth : Int) : Impact Computed where
  symbol := "s"
  file := "a.ts"
  level := "LOW"
  score := score
  usages := []
  depth := depth
  reason := ""

def report (score : Computed) (depth : Int) : ImpactReport Computed :=
  reportImpacts "S" "f" [impact score depth]

def options (maxDepth : Int) : RippleOptions Computed where
  maxDepth := maxDepth
  minimumScore := .whole 10

end Lone

section Drawing

open Lone

theorem impacts_divided_among_rings_trio :
    (rippleOf (options 3) (report (.real 50) 2)).checked =
      .ok (rippleOf (options 3) (report (.real 50) 2)) ∧
    ∃ r after,
      Finds (Trio.folder.workspace.impactOf Computed PlainFolder.repo Trio.silence "f"
        (some "t.ts")) [] r after ∧
      (rippleOf (options 3) r).checked = .ok (rippleOf (options 3) r) ∧
      (rippleOf (options 3) r).Divides (r.impacts.filter (options 3).draws) ∧
      (∀ i ∈ r.impacts, (options 3).draws i = true → (options 3).minimumScore ≤ i.score) ∧
      (rippleOf (options 3) r).countOf "critical" + (rippleOf (options 3) r).countOf "high" +
        (rippleOf (options 3) r).countOf "medium" + (rippleOf (options 3) r).countOf "low" =
          (rippleOf (options 3) r).total := by
  obtain ⟨hdrawn, hrings, hfound⟩ := impacts_divided_among_rings (options 3)
  constructor
  · have hreal : ∀ i ∈ (report (.real 50) 2).impacts, IsReal i.score :=
      List.forall_mem_singleton.mpr ⟨50, rfl⟩
    have hnear : ∀ i ∈ (report (.real 50) 2).impacts, (options 3).draws i = true →
        (i.depth - 1).natAbs < beyondReal :=
      List.forall_mem_singleton.mpr fun _ => by decide +kernel
    exact ((hrings (report (.real 50) 2)).2 (by decide) hreal).mpr hnear
  · obtain ⟨after, h⟩ := Trio.exists_finds
    have hlength : (reportImpacts "f" "t.ts" (rankImpacts "f" (Trio.folder.change Trio.silence "f"
        "t.ts").affected) : ImpactReport Computed).impacts.length < exactLimit := by
      have hnine := congrArg List.length Trio.affected_eq
      rw [List.length_map] at hnine
      rw [reportImpacts, rankImpacts, List.length_mergeSort, List.length_map, hnine]
      decide
    generalize (reportImpacts "f" "t.ts" (rankImpacts "f" (Trio.folder.change Trio.silence "f"
      "t.ts").affected) : ImpactReport Computed) = r at h hlength
    obtain ⟨himpacts, hchecked⟩ := hfound _ _ _ _ _ _ _ _ h
    have hdivides := (hrings r).1
    refine ⟨r, after, h, hchecked hlength, hdivides, fun i hi hdraws => ?_,
      hdivides.counted fun i hi => (himpacts i (List.mem_of_mem_filter hi)).1⟩
    exact ((hdrawn i).2 (himpacts i hi).2 trivial).mp ((hdrawn i).1.mp hdraws).score

/-- A depth beyond all real numbers is admitted and has no ripple, and an undefined score is
drawn. -/
theorem far_ring_not_drawn :
    ((options (Nat.pow 10 400)).Admits (impact (.real 50) (Nat.pow 10 400)) ∧ ∀ rings,
      (rippleOf (options (Nat.pow 10 400)) (report (.real 50) (Nat.pow 10 400))).checked ≠
        .ok rings) ∧
    (options 3).draws (impact (.real (0 / 0)) 1) = true ∧
      ¬ (options 3).minimumScore ≤ (impact (.real (0 / 0)) 1).score := by
  have hdraws : (options (Nat.pow 10 400)).draws (impact (.real 50) (Nat.pow 10 400)) = true := by
    decide +kernel
  have hfar : beyondReal ≤ ((Nat.pow 10 400 : Int) - 1).natAbs := by decide +kernel
  refine ⟨⟨draws_iff.mp hdraws, fun rings h => ?_⟩, by decide +kernel, by decide +kernel⟩
  obtain ⟨-, -, hsame⟩ := bind_eq_ok.mp h
  obtain rfl := Except.ok.inj hsame
  have hnear := ((checked_rippleOf_iff (by decide)).mp h).2 _ List.mem_cons_self hdraws
  exact Nat.not_lt.mpr hfar hnear

end Drawing

end CodeAtlas
