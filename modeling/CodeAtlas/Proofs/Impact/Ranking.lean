import CodeAtlas.Proofs.Impact.Expansion
import CodeAtlas.Proofs.Impact.Lines
import CodeAtlas.Proofs.Number.RealOrder

/-!
# Impacts in order

The entries of a change are as the levels say. A score is one of finitely many numbers, none of them
undefined, so entries with equal scores keep their order.

* **`impacts_expanded_and_ranked`**: the loop ends with such entries, and a report ranks them.
-/

namespace CodeAtlas

/-! ## Sorting -/

section Sorting

variable {α : Type} {le : α → α → Bool} {l : List α}

theorem mergeSort_eq_map_attach (l : List α) (le : α → α → Bool) :
    l.mergeSort le = (l.attach.mergeSort fun a b => le a.1 b.1).map (·.1) := by
  rw [List.map_mergeSort (s := le) fun a _ b _ => rfl, List.attach_map_subtype_val]

variable (htrans : ∀ a ∈ l, ∀ b ∈ l, ∀ c ∈ l, le a b = true → le b c = true → le a c = true)
  (htotal : ∀ a ∈ l, ∀ b ∈ l, (le a b || le b a) = true)

include htrans htotal

theorem pairwise_mergeSort_of_mem : (l.mergeSort le).Pairwise fun a b => le a b = true := by
  rw [mergeSort_eq_map_attach, List.pairwise_map]
  exact List.pairwise_mergeSort (fun a b c => htrans a.1 a.2 b.1 b.2 c.1 c.2)
    (fun a b => htotal a.1 a.2 b.1 b.2) _

theorem filter_mergeSort_of_mem {x : α} (hx : x ∈ l) :
    (l.mergeSort le).filter (fun y => le x y && le y x) = l.filter fun y => le x y && le y x := by
  have hlevel : (l.attach.filter fun y => le x y.1 && le y.1 x).Pairwise
      fun a b => le a.1 b.1 = true := by
    refine List.pairwise_of_forall_mem_list fun a ha b hb => ?_
    have ha' := (Bool.and_eq_true_iff.mp (List.mem_filter.mp ha).2).2
    have hb' := (Bool.and_eq_true_iff.mp (List.mem_filter.mp hb).2).1
    exact htrans a.1 a.2 x hx b.1 b.2 ha' hb'
  have hsublist := List.sublist_mergeSort (fun a b c => htrans a.1 a.2 b.1 b.2 c.1 c.2)
    (fun a b => htotal a.1 a.2 b.1 b.2) hlevel List.filter_sublist
  have hlevels : l.attach.filter (fun y => le x y.1 && le y.1 x) =
      (l.attach.mergeSort fun a b => le a.1 b.1).filter fun y => le x y.1 && le y.1 x := by
    refine List.Sublist.eq_of_length ?_ ?_
    · have hfilter := hsublist.filter fun y => le x y.1 && le y.1 x
      rwa [List.filter_filter, List.filter_congr fun y _ => Bool.and_self _] at hfilter
    · exact ((List.mergeSort_perm _ _).filter _).length_eq.symm
  calc (l.mergeSort le).filter (fun y => le x y && le y x)
      = ((l.attach.mergeSort fun a b => le a.1 b.1).filter
          fun y => le x y.1 && le y.1 x).map (·.1) := by
        rw [mergeSort_eq_map_attach, List.filter_map]
        rfl
    _ = (l.attach.filter fun y => le x y.1 && le y.1 x).map (·.1) := by rw [hlevels]
    _ = (l.attach.map (·.1)).filter fun y => le x y && le y x := by
        rw [List.filter_map]
        rfl
    _ = l.filter fun y => le x y && le y x := by rw [List.attach_map_subtype_val]

end Sorting

/-! ## Scores -/

def fileWeights : List Computed :=
  [Arith.ratio 3 10, Arith.ratio 1 2, Arith.real 2, Arith.ratio 3 2, Arith.real 1]

theorem fileCriticality_mem (path : String) : fileCriticality path ∈ fileWeights := by
  unfold fileCriticality
  split_ifs <;> simp only [fileWeights, List.mem_cons, true_or, or_true]

instance (a : Computed) : Decidable a.Placed := inferInstanceAs (Decidable (_ = true))

theorem placed_scores : ∀ depth ∈ [1, 2, 3], ∀ uses ∈ List.range 11, ∀ weight ∈ fileWeights,
    (Arith.round 2 (depthScore (K := Computed) ((depth : Nat) : Int) *
      (Arith.int ((uses : Nat) : Int) / Arith.int 10) * weight)).Placed := by
  decide +kernel

theorem placed_score {a : Affected} (h : a.depth ∈ [1, 2, 3]) (root : String) :
    (a.impact root : Impact Computed).score.Placed := by
  have huses : min (a.usages.length : Int) 10 = ((min a.usages.length 10 : Nat) : Int) := by
    omega
  have hrange : min a.usages.length 10 ∈ List.range 11 := by
    rw [List.mem_range]
    omega
  have hscore := placed_scores a.depth h _ hrange _ (fileCriticality_mem a.file)
  rw [← huses] at hscore
  exact hscore

/-! ## Entries -/

/-- What entries a change has. -/
structure Change.WellSpread (c : Change) (items : List Affected) : Prop where
  depth : ∀ a ∈ items, a.depth ∈ [1, 2, 3]
  usages : ∀ a ∈ items, a.usages ≠ [] ∧ ∀ u ∈ a.usages, u.file = a.file
  /-- Next to the change an entry holds the usages of its file and kind, or it is reported. -/
  first : ∀ a ∈ items, a.depth = 1 →
    (a.tag ∈ usageKinds ∧
      a.usages = c.direct.filter fun u => u.file == a.file && u.kind == a.tag) ∨
    (a.tag ∈ relationNames ∧
      ∃ r ∈ c.reported, r.file = a.file ∧ r.relation = a.tag ∧ a.usages = [r.usage])
  /-- One entry for a file and kind of use, and one for a file and relation. -/
  firstOnce : ((items.filter (·.depth == 1)).map fun a => (a.file, a.tag)).Nodup
  /-- One entry for a file at each further depth. -/
  furtherOnce : ∀ d, 2 ≤ d → ((items.filter (·.depth == d)).map (·.file)).Nodup
  nearer : ∀ a ∈ items, 2 ≤ a.depth → ∃ b ∈ items, b.depth + 1 = a.depth ∧ b.file ≠ a.file

theorem Change.Scanned.wellSpread {c : Change} (h : c.Scanned) : c.WellSpread c.affected where
  depth a ha := by
    obtain ⟨-, hone, hthree⟩ := mem_level_depth ha
    simp only [List.mem_cons, List.not_mem_nil, or_false]
    omega
  usages a ha := by
    obtain ⟨hlevel, -⟩ := mem_level_depth ha
    exact ⟨usages_ne_nil hlevel, fun u hu => file_of_mem_usages hlevel hu⟩
  first a ha hdepth := by
    obtain ⟨hlevel, -⟩ := mem_level_depth ha
    rw [hdepth] at hlevel
    rcases mem_first hlevel with ⟨-, -, hne, husages⟩ | ⟨r, hr, rfl⟩
    · obtain ⟨u, hu⟩ := List.exists_mem_of_ne_nil _ hne
      rw [husages] at hu
      obtain ⟨hdirect, hof⟩ := List.mem_filter.mp hu
      simp only [Bool.and_eq_true, beq_iff_eq] at hof
      exact Or.inl ⟨hof.2 ▸ h.kinds u hdirect, husages⟩
    · exact Or.inr ⟨h.relations r hr, r, hr, rfl, rfl, rfl⟩
  firstOnce := by
    rw [filter_depth_affected, if_pos (by omega)]
    exact nodup_keys_first
  furtherOnce d hd := by
    rw [filter_depth_affected]
    split_ifs
    · obtain ⟨e, rfl⟩ : ∃ e, d = e + 2 := ⟨d - 2, by omega⟩
      exact nodup_files_next e
    · exact List.nodup_nil
  nearer a ha hdepth := by
    obtain ⟨hlevel, -, hthree⟩ := mem_level_depth ha
    obtain ⟨e, he⟩ : ∃ e, a.depth = e + 2 := ⟨a.depth - 2, by omega⟩
    rw [he] at hlevel
    obtain ⟨b, hb, hne, -⟩ := exists_nearer hlevel
    have hbdepth := depth_of_mem hb
    refine ⟨b, ?_, by omega, hne⟩
    have hmem : b ∈ c.affected.filter (·.depth == e + 1) := by
      rw [filter_depth_affected, if_pos (by omega)]
      exact hb
    exact (List.mem_filter.mp hmem).1

theorem Change.IsOf.toScanned {c : Change} {w : Workspace} {repo : Path}
    {knowledge : KnowledgeSource} {symbol target : String}
    (h : c.IsOf w repo knowledge symbol target) : c.Scanned where
  kinds u hu := by
    rw [h.direct] at hu
    exact Workspace.kind_of_mem (h.scanned c.symbol List.mem_cons_self) (List.mem_filter.mp hu).1
  relations r hr := relation_of_mem_reportsOf (h.reported ▸ hr)

/-! ## Reports -/

def Impact.ties (i j : Impact Computed) : Bool :=
  decide (j.score ≤ i.score) && decide (i.score ≤ j.score)

/-- How a report lists the entries of a change. -/
structure ImpactReport.Ranks (r : ImpactReport Computed) (symbol : String)
    (items : List Affected) : Prop where
  perm : r.impacts.Perm (items.map fun a => a.impact symbol)
  sorted : r.impacts.Pairwise fun i j => j.score ≤ i.score
  /-- Impacts with equal scores are listed in the order in which they were found. -/
  stable : ∀ i ∈ r.impacts,
    r.impacts.filter i.ties = (items.map fun a => a.impact symbol).filter i.ties
  /-- The depth of the report is the greatest depth of an impact, zero if there is none. -/
  depth_le : ∀ i ∈ r.impacts, i.depth ≤ r.depth
  depth_mem : r.impacts ≠ [] → ∃ i ∈ r.impacts, i.depth = r.depth
  depth_none : r.impacts = [] → r.depth = 0

theorem ranks_reportImpacts {items : List Affected} (h : ∀ a ∈ items, a.depth ∈ [1, 2, 3])
    (symbol target : String) :
    (reportImpacts symbol target (rankImpacts symbol items)).Ranks symbol items := by
  have hplaced : ∀ i ∈ items.map fun a => (a.impact symbol : Impact Computed), i.score.Placed := by
    intro i hi
    obtain ⟨a, ha, rfl⟩ := List.mem_map.mp hi
    exact placed_score (h a ha) symbol
  have htrans : ∀ i ∈ items.map fun a => (a.impact symbol : Impact Computed),
      ∀ j ∈ items.map fun a => (a.impact symbol : Impact Computed),
      ∀ k ∈ items.map fun a => (a.impact symbol : Impact Computed),
      decide (j.score ≤ i.score) = true → decide (k.score ≤ j.score) = true →
        decide (k.score ≤ i.score) = true := by
    intro i hi j hj k hk hij hjk
    exact decide_eq_true ((hplaced k hk).trans (hplaced j hj) (hplaced i hi)
      (of_decide_eq_true hjk) (of_decide_eq_true hij))
  have htotal : ∀ i ∈ items.map fun a => (a.impact symbol : Impact Computed),
      ∀ j ∈ items.map fun a => (a.impact symbol : Impact Computed),
      (decide (j.score ≤ i.score) || decide (i.score ≤ j.score)) = true := by
    intro i hi j hj
    rw [Bool.or_eq_true, decide_eq_true_iff, decide_eq_true_iff]
    exact (hplaced j hj).total (hplaced i hi)
  have hperm := List.mergeSort_perm (items.map fun a => (a.impact symbol : Impact Computed))
    fun i j => decide (j.score ≤ i.score)
  have hdepth : ∀ i ∈ rankImpacts symbol items, 1 ≤ (i : Impact Computed).depth := by
    intro i hi
    obtain ⟨a, ha, rfl⟩ := mem_rankImpacts.mp hi
    have hmem := h a ha
    change 1 ≤ (a.depth : Int)
    simp only [List.mem_cons, List.not_mem_nil, or_false] at hmem
    omega
  obtain ⟨hsome, hall⟩ :=
    isGreatest_foldl_max ((rankImpacts symbol items : List (Impact Computed)).map (·.depth)) 0
  refine ⟨hperm, (pairwise_mergeSort_of_mem htrans htotal).imp of_decide_eq_true,
    fun i hi => filter_mergeSort_of_mem htrans htotal (hperm.mem_iff.mp hi),
    fun i hi => hall (List.mem_cons_of_mem _ (List.mem_map_of_mem hi)), fun hne => ?_,
    fun hnil => ?_⟩
  · obtain ⟨i, hi⟩ := List.exists_mem_of_ne_nil _ hne
    rcases List.mem_cons.mp hsome with hsome | hsome
    · -- a depth is at least one, so the greatest cannot be zero
      have hle := hall (List.mem_cons_of_mem _ (List.mem_map_of_mem hi))
      have hone := hdepth i hi
      omega
    · obtain ⟨j, hj, hmax⟩ := List.mem_map.mp hsome
      exact ⟨j, hj, hmax⟩
  · change ((rankImpacts symbol items : List (Impact Computed)).map (·.depth)).foldl max 0 = 0
    have hempty : (rankImpacts symbol items : List (Impact Computed)) = [] := hnil
    rw [hempty]
    rfl

/-- **The loop ends and a report ranks what it leaves.** For every inquiry that succeeds, the report
lists the entries of its change by their scores. -/
theorem impacts_expanded_and_ranked :
    (∀ c : Change, c.Scanned → ∃ n, ((Expansion.step c)^[n] (Expansion.start c)).queue = [] ∧
      ((Expansion.step c)^[n] (Expansion.start c)).items = c.affected ∧
      c.WellSpread c.affected) ∧
    ∀ (w : Workspace) (repo : Path) (knowledge : KnowledgeSource) (symbol : String)
      (file : Option String) (before after : List Search) (r : ImpactReport Computed),
      Finds (w.impactOf Computed repo knowledge symbol file) before r after →
      ∃ c : Change, c.IsOf w repo knowledge symbol r.file ∧ c.Scanned ∧
        r.Ranks symbol c.affected := by
  refine ⟨fun c hc => ?_, fun w repo knowledge symbol file before after r h => ?_⟩
  · obtain ⟨n, hqueue, hitems⟩ := Expansion.exists_done hc
    exact ⟨n, hqueue, hitems, hc.wellSpread⟩
  · obtain ⟨c, hc, hr⟩ := Workspace.exists_change h
    refine ⟨c, hc, hc.toScanned, ?_⟩
    rw [hr]
    exact ranks_reportImpacts hc.toScanned.wellSpread.depth symbol r.file

theorem impacts_expanded_and_ranked_trio : ∃ r after,
    Finds (Trio.folder.workspace.impactOf Computed PlainFolder.repo Trio.silence "f" (some "t.ts"))
      [] r after ∧
    ∃ c : Change, c.IsOf Trio.folder.workspace PlainFolder.repo Trio.silence "f" r.file ∧
      r.Ranks "f" c.affected ∧
      ∃ n, ((Expansion.step c)^[n] (Expansion.start c)).queue = [] ∧
        ((Expansion.step c)^[n] (Expansion.start c)).items = c.affected := by
  obtain ⟨after, h⟩ := Trio.exists_finds
  obtain ⟨c, hc, hscanned, hranks⟩ := impacts_expanded_and_ranked.2 _ _ _ _ _ _ _ _ h
  obtain ⟨n, hqueue, hitems, -⟩ := impacts_expanded_and_ranked.1 c hscanned
  exact ⟨_, after, h, c, hc, hranks, n, hqueue, hitems⟩

end CodeAtlas
