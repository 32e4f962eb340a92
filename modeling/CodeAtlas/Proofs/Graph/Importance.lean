import CodeAtlas.Graph.Statistics
import CodeAtlas.Proofs.Graph.Dependency
import CodeAtlas.Proofs.Number.Rational
import Mathlib.Algebra.BigOperators.Field
import Mathlib.Algebra.BigOperators.Ring.Finset
import Mathlib.Algebra.Order.BigOperators.Group.List
import Mathlib.Tactic.Positivity
import Mathlib.Tactic.Ring

/-!
# Importance is shared out

Over the rationals a round loses nothing: what a node with dependencies holds is handed on in equal
parts, and what the others hold is spread over all.

* **`Graph.importance_sums_to_one`**: the scores of a graph, their sum and their least values.
-/

namespace CodeAtlas

/-! ## Scores and their sum -/

section Scores

variable {scores : List (String × ℚ)} {ids : List String}

theorem scoreOf_cons (p : String × ℚ) (scores : List (String × ℚ)) (id : String) :
    scoreOf (p :: scores) id = if p.1 = id then p.2 else scoreOf scores id := by
  unfold scoreOf
  split_ifs with h
  · have hb : (p.1 == id) = true := beq_iff_eq.mpr h
    simp only [List.find?_cons, hb, Option.map_some, Option.getD_some]
  · have hb : (p.1 == id) = false := beq_false_of_ne h
    simp only [List.find?_cons, hb]

theorem map_scoreOf (h : (scores.map (·.1)).Nodup) :
    (scores.map (·.1)).map (scoreOf scores) = scores.map (·.2) := by
  induction scores with
  | nil => rfl
  | cons p scores ih =>
    rw [List.map_cons, List.nodup_cons] at h
    rw [List.map_cons, List.map_cons, List.map_cons, scoreOf_cons, if_pos rfl, ← ih h.2]
    congr 1
    refine List.map_congr_left fun id hid => ?_
    have hne : p.1 ≠ id := fun e => h.1 (e ▸ hid)
    rw [scoreOf_cons, if_neg hne]

theorem scoreOf_nonneg (h : ∀ p ∈ scores, 0 ≤ p.2) (id : String) : 0 ≤ scoreOf scores id := by
  induction scores with
  | nil => exact le_rfl
  | cons p scores ih =>
    rw [scoreOf_cons]
    split_ifs
    · exact h p List.mem_cons_self
    · exact ih fun q hq => h q (List.mem_cons_of_mem _ hq)

end Scores

/-! ## One round -/

section Round

/-- Two indices of one relation on the ids, from sources to targets and back. -/
structure Mirrored (ahead behind : String → List String) (ids : List String) : Prop where
  mem_behind : ∀ a b, a ∈ behind b ↔ b ∈ ahead a
  mem_ids : ∀ a b, b ∈ ahead a → a ∈ ids ∧ b ∈ ids
  nodup_ahead : ∀ a, (ahead a).Nodup
  nodup_behind : ∀ b, (behind b).Nodup

variable {ahead behind : String → List String} {ids : List String} {damping : ℚ}
  {scores : List (String × ℚ)}

/-- What flows in, as each source shares its score. -/
def incoming (ahead behind : String → List String) (scores : List (String × ℚ)) (id : String) : ℚ :=
  ((behind id).map fun source => scoreOf scores source / (ahead source).length).sum

theorem importanceRound_eq (hd : ids.Nodup) :
    importanceRound ahead behind ids damping scores = ids.map fun id =>
      (id, (1 - damping) / ids.length +
        damping * (incoming ahead behind scores id + idleScore ahead ids scores / ids.length)) := by
  simp only [importanceRound, eraseDups_eq_self hd, Arith.nat_rat, Arith.int_rat, Arith.sum_rat,
    Int.cast_one]
  rfl

theorem sum_parts (targets : Finset String) (score : ℚ) :
    ∑ _ ∈ targets, score / targets.card = if targets = ∅ then 0 else score := by
  split_ifs with h
  · rw [h, Finset.sum_empty]
  · have hc : (targets.card : ℚ) ≠ 0 := by simpa using h
    rw [Finset.sum_const, nsmul_eq_mul, mul_div_cancel₀ _ hc]

/-- **Nothing is lost.** What is handed on and what is idle is all that was held. -/
theorem sum_incoming_add_idle (h : Mirrored ahead behind ids) (hd : ids.Nodup) :
    (ids.map (incoming ahead behind scores)).sum + idleScore ahead ids scores =
      (ids.map (scoreOf scores)).sum := by
  have hin : (ids.map (incoming ahead behind scores)).sum =
      ∑ a ∈ ids.toFinset, if (ahead a).toFinset = ∅ then 0 else scoreOf scores a := by
    calc (ids.map (incoming ahead behind scores)).sum
        = ∑ b ∈ ids.toFinset, ∑ a ∈ (behind b).toFinset,
            scoreOf scores a / (ahead a).toFinset.card := by
          rw [← List.sum_toFinset _ hd]
          refine Finset.sum_congr rfl fun b _ => ?_
          rw [incoming, ← List.sum_toFinset _ (h.nodup_behind b)]
          refine Finset.sum_congr rfl fun a _ => ?_
          rw [List.toFinset_card_of_nodup (h.nodup_ahead a)]
      _ = ∑ a ∈ ids.toFinset, ∑ b ∈ (ahead a).toFinset,
            scoreOf scores a / (ahead a).toFinset.card := by
          refine Finset.sum_comm' fun b a => ?_
          simp only [List.mem_toFinset, h.mem_behind]
          exact ⟨fun hb => ⟨hb.2, (h.mem_ids a b hb.2).1⟩, fun hb => ⟨(h.mem_ids a b hb.1).2, hb.1⟩⟩
      _ = _ := Finset.sum_congr rfl fun a _ => sum_parts _ _
  have hidle : idleScore ahead ids scores =
      ∑ a ∈ ids.toFinset, if (ahead a).toFinset = ∅ then scoreOf scores a else 0 := by
    rw [idleScore, Arith.sum_rat, ← List.sum_toFinset _ (hd.filter _), List.toFinset_filter,
      Finset.sum_filter]
    refine Finset.sum_congr rfl fun a _ => ?_
    simp [List.toFinset_eq_empty_iff]
  rw [hin, hidle, ← Finset.sum_add_distrib, ← List.sum_toFinset _ hd]
  refine Finset.sum_congr rfl fun a _ => ?_
  split_ifs
  · exact zero_add _
  · exact add_zero _

theorem sum_importanceRound (h : Mirrored ahead behind ids) (hd : ids.Nodup) (hne : ids ≠ [])
    (hs : scores.map (·.1) = ids) :
    ((importanceRound ahead behind ids damping scores).map (·.2)).sum =
      1 - damping + damping * (scores.map (·.2)).sum := by
  have hcount : (ids.length : ℚ) ≠ 0 := by simpa using hne
  have hheld : (scores.map (·.2)).sum = (ids.map (scoreOf scores)).sum := by
    rw [← hs] at hd ⊢
    rw [map_scoreOf hd]
  -- what is the same for all nodes is counted once for each of them
  have hconst : ∀ c : ℚ, (ids.map fun _ => c).sum = ids.length * c := fun c => by
    rw [List.map_const', List.sum_replicate, nsmul_eq_mul]
  rw [importanceRound_eq hd, List.map_map, hheld, ← sum_incoming_add_idle h hd]
  simp only [Function.comp_def, List.sum_map_add, List.sum_map_mul_left, hconst]
  rw [mul_div_cancel₀ _ hcount, mul_div_cancel₀ _ hcount]

theorem le_importanceRound (hd : ids.Nodup) (h₀ : 0 ≤ damping) (hs : ∀ p ∈ scores, 0 ≤ p.2) :
    ∀ p ∈ importanceRound ahead behind ids damping scores, (1 - damping) / ids.length ≤ p.2 := by
  have hscore := scoreOf_nonneg hs
  have hin : ∀ id, 0 ≤ incoming ahead behind scores id := fun id =>
    List.sum_nonneg fun x hx => by
      obtain ⟨a, -, rfl⟩ := List.mem_map.mp hx
      exact div_nonneg (hscore a) (Nat.cast_nonneg _)
  have hidle : 0 ≤ idleScore ahead ids scores := by
    rw [idleScore, Arith.sum_rat]
    refine List.sum_nonneg fun x hx => ?_
    obtain ⟨a, -, rfl⟩ := List.mem_map.mp hx
    exact hscore a
  intro p hp
  rw [importanceRound_eq hd] at hp
  obtain ⟨id, -, rfl⟩ := List.mem_map.mp hp
  exact le_add_of_nonneg_right (mul_nonneg h₀ (add_nonneg (hin id)
    (div_nonneg hidle (Nat.cast_nonneg _))))

/-! ## All rounds -/

theorem importanceAfter_zero (hd : ids.Nodup) :
    importanceAfter ahead behind ids damping 0 = ids.map fun id => (id, 1 / (ids.length : ℚ)) := by
  simp only [importanceAfter, eraseDups_eq_self hd, Arith.nat_rat, Arith.int_rat, Int.cast_one]

theorem map_fst_importanceAfter (hd : ids.Nodup) (rounds : ℕ) :
    (importanceAfter ahead behind ids damping rounds).map (·.1) = ids := by
  cases rounds with
  | zero => simp [importanceAfter_zero hd, Function.comp_def]
  | succ rounds => simp [importanceAfter, importanceRound_eq hd, Function.comp_def]

theorem sum_importanceAfter (h : Mirrored ahead behind ids) (hd : ids.Nodup) (hne : ids ≠ [])
    (rounds : ℕ) : ((importanceAfter ahead behind ids damping rounds).map (·.2)).sum = 1 := by
  induction rounds with
  | zero =>
    have hcount : (ids.length : ℚ) ≠ 0 := by simpa using hne
    rw [importanceAfter_zero hd, List.map_map]
    simp [Function.comp_def, hcount]
  | succ rounds ih =>
    rw [importanceAfter, sum_importanceRound h hd hne (map_fst_importanceAfter hd rounds), ih]
    ring

theorem importanceAfter_nonneg (hd : ids.Nodup) (h₀ : 0 ≤ damping) (h₁ : damping ≤ 1)
    (rounds : ℕ) : ∀ p ∈ importanceAfter ahead behind ids damping rounds, 0 ≤ p.2 := by
  induction rounds with
  | zero =>
    intro p hp
    rw [importanceAfter_zero hd] at hp
    obtain ⟨id, -, rfl⟩ := List.mem_map.mp hp
    positivity
  | succ rounds ih =>
    intro p hp
    have hleast : 0 ≤ (1 - damping) / ids.length :=
      div_nonneg (sub_nonneg.mpr h₁) (Nat.cast_nonneg _)
    exact hleast.trans (le_importanceRound hd h₀ ih p hp)

end Round

namespace Graph

theorem mirrored (g : Graph) : Mirrored g.ahead.targets g.behind.targets g.ids where
  mem_behind _ _ := mem_behind.trans mem_ahead.symm
  mem_ids _ _ h := ⟨(mem_ahead.mp h).source_mem, (mem_ahead.mp h).target_mem⟩
  nodup_ahead := g.nodup_ahead
  nodup_behind := g.nodup_behind

/-- **Importance scores** of a graph with distinct ids sum to one, and are not negative if the
damping is a share. -/
theorem importance_sums_to_one (g : Graph) (hne : g.nodes ≠ []) (hd : g.ids.Nodup) (damping : ℚ)
    (rounds : ℕ) :
    (g.importance damping rounds).map (·.1) = g.ids ∧
    ((g.importance damping rounds).map (·.2)).sum = 1 ∧
    (0 ≤ damping → damping ≤ 1 →
      (∀ p ∈ g.importance damping rounds, 0 ≤ p.2) ∧
      (1 ≤ rounds → ∀ p ∈ g.importance damping rounds, (1 - damping) / g.nodes.length ≤ p.2)) := by
  have hids : g.ids ≠ [] := by simpa [ids] using hne
  have hlen : g.ids.length = g.nodes.length := by simp [ids]
  refine ⟨map_fst_importanceAfter hd rounds, sum_importanceAfter g.mirrored hd hids rounds,
    fun h₀ h₁ => ⟨importanceAfter_nonneg hd h₀ h₁ rounds, fun hk => ?_⟩⟩
  obtain ⟨k, rfl⟩ := Nat.exists_eq_add_of_le' hk
  rw [← hlen]
  exact le_importanceRound hd h₀ (importanceAfter_nonneg hd h₀ h₁ k)

/-- A node that depends on two others, which depend on nothing. -/
def fork : Graph where
  nodes := ["a", "b", "c"].map fun id => { id, kind := "file", name := id, path := id }
  edges := [Edge.between "a" "b" "imports", Edge.between "a" "c" "imports"]
  metadata := { generatedAt := "" }

theorem importance_fork :
    (fork.importance (1 / 2 : ℚ) 3).map (·.1) = ["a", "b", "c"] ∧
    ((fork.importance (1 / 2 : ℚ) 3).map (·.2)).sum = 1 ∧
    ∀ p ∈ fork.importance (1 / 2 : ℚ) 3, (1 - 1 / 2) / 3 ≤ p.2 := by
  obtain ⟨hids, hsum, hleast⟩ := importance_sums_to_one fork (by simp [fork]) (by decide) (1 / 2) 3
  exact ⟨hids, hsum, (hleast (by norm_num) (by norm_num)).2 (by norm_num)⟩

end Graph

end CodeAtlas
