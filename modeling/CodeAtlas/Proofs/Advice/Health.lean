import CodeAtlas.Proofs.Advice.Wording
import CodeAtlas.Proofs.Number.Values
import CodeAtlas.Proofs.Outcome

/-!
# Health falls with every issue

Each issue weighs on the health of a graph once for every entity in it, and more nodes spread the
weight. Looking for more kinds of issues finds the same issues and more.

* **`health_falls_with_issues`**: the score, and the score in the advice on a graph.
-/

namespace CodeAtlas

/-! ## The score of a list of issues -/

/-- Twice the weight of all issues, each counted once for every entity in it. -/
def issueHalves (suggestions : List Suggestion) : ℕ :=
  (suggestions.map fun s => severityHalves s.severity * s.entities.length).sum

section Score

variable {ss ss' : List Suggestion} {m n : ℕ}

theorem issueHalves_perm (h : ss.Perm ss') : issueHalves ss = issueHalves ss' :=
  (h.map _).sum_eq

theorem issueHalves_sublist (h : ss.Sublist ss') : issueHalves ss ≤ issueHalves ss' :=
  (h.map _).sum_le_sum fun _ _ => Nat.zero_le _

theorem issueHalves_le_replace {s s' : Suggestion} (before after : List Suggestion)
    (hseverity : s'.severity = s.severity) (hlength : s.entities.length ≤ s'.entities.length) :
    issueHalves (before ++ s :: after) ≤ issueHalves (before ++ s' :: after) := by
  simp only [issueHalves, List.map_append, List.map_cons, List.sum_append, List.sum_cons, hseverity]
  gcongr

theorem severityWeight_rat (severity : String) :
    (severityWeight severity : ℚ) = severityHalves severity / 2 := by
  unfold severityWeight
  generalize severityHalves severity = halves
  dsimp only
  split_ifs with heven
  · rw [Arith.nat_rat, Nat.cast_div (Nat.dvd_of_mod_eq_zero heven) two_ne_zero, Nat.cast_two]
  · simp [Arith.ratio]

theorem penalty_rat (ss : List Suggestion) : (penalty ss : ℚ) = issueHalves ss / 2 := by
  unfold penalty issueHalves
  rw [Arith.sum_rat]
  induction ss with
  | nil => simp
  | cons s ss ih =>
    rw [List.map_cons, List.map_cons, List.sum_cons, List.sum_cons, ih, severityWeight_rat,
      Arith.nat_rat]
    push_cast
    ring

/-- The score is what the weight for each node leaves of a hundred, a half rounded up. -/
theorem healthScore_eq (hn : 0 < n) (ss : List Suggestion) :
    healthScore ℚ ss n = ⌊max 0 (100 - 5 * (issueHalves ss / n : ℚ)) + 1 / 2⌋ := by
  have hn' : (n : ℤ) ≠ 0 := by exact_mod_cast hn.ne'
  have hleft : (healthLeft ss n : ℚ) = max 0 (100 - 5 * (issueHalves ss / n : ℚ)) := by
    unfold healthLeft
    rw [Arith.max_rat, penalty_rat]
    have hn0 : (n : ℚ) ≠ 0 := by exact_mod_cast hn.ne'
    simp only [Arith.real, Arith.ratio, Arith.int_rat]
    push_cast
    congr 1
    · norm_num
    · field_simp
      ring
  have hhalf : (Arith.ratio 1 2 : ℚ) = 1 / 2 := by norm_num [Arith.ratio]
  rw [healthScore, if_neg hn', hleft, hhalf]
  rfl

theorem healthScore_zero (ss : List Suggestion) : healthScore ℚ ss ((0 : ℕ) : ℤ) = 100 := rfl

/-- **More weight for each node** leaves no more of the score. -/
theorem healthScore_anti (hm : 0 < m) (hn : 0 < n)
    (h : (issueHalves ss / n : ℚ) ≤ issueHalves ss' / m) :
    healthScore ℚ ss' m ≤ healthScore ℚ ss n := by
  rw [healthScore_eq hm, healthScore_eq hn]
  gcongr

theorem healthScore_le (h : issueHalves ss ≤ issueHalves ss') (n : ℕ) :
    healthScore ℚ ss' n ≤ healthScore ℚ ss n := by
  rcases Nat.eq_zero_or_pos n with rfl | hn
  · exact le_rfl
  · have hcast : (issueHalves ss : ℚ) ≤ issueHalves ss' := by exact_mod_cast h
    exact healthScore_anti hn hn (by gcongr)

theorem healthScore_mem_range (ss : List Suggestion) (n : ℕ) :
    0 ≤ healthScore ℚ ss n ∧ healthScore ℚ ss n ≤ 100 := by
  rcases Nat.eq_zero_or_pos n with rfl | hn
  · rw [healthScore_zero]
    decide
  have hweight : (0 : ℚ) ≤ issueHalves ss / n := by positivity
  rw [healthScore_eq hn]
  constructor
  · positivity
  · refine Int.lt_add_one_iff.mp (Int.floor_lt.mpr ?_)
    have hmax : max 0 (100 - 5 * (issueHalves ss / n : ℚ)) ≤ 100 :=
      max_le (by norm_num) (by linarith)
    push_cast
    linarith

end Score

/-! ## What is found -/

/-- What is looked for under the options is looked for under others as well. -/
structure AdviceOptions.Within (options wider : AdviceOptions) : Prop where
  kinds : options.issueKinds ⊆ wider.issueKinds
  confidence : wider.minConfidence = options.minConfidence ∨
    options.minConfidence.atLeast wider.minConfidence = true

section Advice

variable {g : Graph} {options wider : AdviceOptions}

/-- **Wider options** find the same issues and more. -/
theorem Graph.smells_within (h : options.Within wider) {found' : List Suggestion}
    (hfound : g.smells wider = .ok found') :
    ∃ found, g.smells options = .ok found ∧ found.Sublist found' := by
  have hwanted : (detectors.filter fun d => options.issueKinds.contains d.1).Sublist
      (detectors.filter fun d => wider.issueKinds.contains d.1) := by
    refine List.monotone_filter_right _ fun d hd => ?_
    rw [List.contains_iff_mem] at hd ⊢
    exact h.kinds hd
  have hconfident : ∀ s : Suggestion,
      Amount.atLeast (.real s.confidence) options.minConfidence = true →
        Amount.atLeast (.real s.confidence) wider.minConfidence = true := by
    intro s hs
    rcases h.confidence with heq | hle
    · rw [heq]
      exact hs
    · exact Amount.atLeast_trans hs hle
  obtain ⟨all', hall', hfound⟩ := bind_eq_ok.mp hfound
  obtain rfl := Except.ok.inj hfound
  obtain ⟨all, hall, hsub⟩ := mapM_sublist hwanted hall'
  refine ⟨all.flatten.filter fun s => Amount.atLeast (.real s.confidence) options.minConfidence,
    bind_eq_ok.mpr ⟨all, hall, rfl⟩, ?_⟩
  exact (hsub.flatten.filter _).trans (List.monotone_filter_right _ hconfident)

theorem Graph.adviceIn_health (K : Type) [Arith K] {σ : Type} (g : Graph)
    (options : AdviceOptions) (ask : Option (AdviceService σ)) (service : σ) :
    (g.adviceIn K options ask service).map (·.1.health) =
      (g.smells options).map fun found => healthScore K found g.nodes.length := by
  have h := congrArg (Except.map AdviceReport.health) (g.adviceIn_unworded K options ask service)
  cases hadvice : g.adviceIn K options ask service <;> cases hfound : g.smells options <;>
    rw [hadvice, hfound] at h <;> exact h

/-- **Wider options** never raise the score in the advice. -/
theorem Graph.health_within (h : options.Within wider) {σ τ : Type}
    {ask : Option (AdviceService σ)} {service : σ} {ask' : Option (AdviceService τ)} {service' : τ}
    {r' : AdviceReport × List String × τ} (hr' : g.adviceIn ℚ wider ask' service' = .ok r') :
    ∃ r, g.adviceIn ℚ options ask service = .ok r ∧ r'.1.health ≤ r.1.health := by
  have hwider : (g.adviceIn ℚ wider ask' service').map (·.1.health) = .ok r'.1.health := by
    rw [hr']
    rfl
  rw [adviceIn_health] at hwider
  obtain ⟨found', hfound', hhealth'⟩ := map_eq_ok.mp hwider
  obtain ⟨found, hfound, hsub⟩ := smells_within h hfound'
  have hnarrow : (g.adviceIn ℚ options ask service).map (·.1.health) =
      .ok (healthScore ℚ found g.nodes.length) := by
    rw [adviceIn_health, hfound]
    rfl
  obtain ⟨r, hr, hhealth⟩ := map_eq_ok.mp hnarrow
  refine ⟨r, hr, ?_⟩
  rw [hhealth, ← hhealth']
  exact healthScore_le (issueHalves_sublist hsub) _

end Advice

/-- **Health falls with every issue.** More issues or entities never raise the score, and more nodes
never lower it; so looking for more kinds of issues, or for less confident ones, never raises the
score in the advice on a graph. -/
theorem health_falls_with_issues (ss : List Suggestion) (n : ℕ) :
    (0 ≤ healthScore ℚ ss n ∧ healthScore ℚ ss n ≤ 100) ∧
      (0 < n → healthScore ℚ ss n = ⌊max 0 (100 - 5 * (issueHalves ss / n : ℚ)) + 1 / 2⌋) ∧
      (∀ ss', ss'.Perm ss → healthScore ℚ ss' n = healthScore ℚ ss n) ∧
      (∀ before s after, ss = before ++ after →
        healthScore ℚ (before ++ s :: after) n ≤ healthScore ℚ ss n) ∧
      (∀ before s after, ss = before ++ s :: after →
        ∀ front entity back, s.entities = front ++ back →
          healthScore ℚ (before ++ { s with entities := front ++ entity :: back } :: after) n ≤
            healthScore ℚ ss n) ∧
      (∀ m : ℕ, 1 ≤ n → n ≤ m → healthScore ℚ ss n ≤ healthScore ℚ ss m) ∧
      ∀ (g : Graph) (options wider : AdviceOptions), options.Within wider →
        ∀ (σ τ : Type) (ask : Option (AdviceService σ)) (service : σ)
          (ask' : Option (AdviceService τ)) (service' : τ) (r' : AdviceReport × List String × τ),
          g.adviceIn ℚ wider ask' service' = .ok r' →
            ∃ r, g.adviceIn ℚ options ask service = .ok r ∧ r'.1.health ≤ r.1.health := by
  refine ⟨healthScore_mem_range ss n, fun hn => healthScore_eq hn ss, ?_, ?_, ?_, ?_, ?_⟩
  · intro ss' hperm
    have hsame := issueHalves_perm hperm
    exact le_antisymm (healthScore_le hsame.ge n) (healthScore_le hsame.le n)
  · rintro before s after rfl
    exact healthScore_le (issueHalves_sublist
      ((List.Sublist.refl before).append (List.sublist_cons_self s after))) n
  · rintro before s after rfl front entity back hentities
    have hlength : s.entities.length ≤ (front ++ entity :: back).length := by
      rw [hentities, List.length_append, List.length_append, List.length_cons]
      omega
    exact healthScore_le (issueHalves_le_replace before after (by rfl) hlength) n
  · intro m hn hle
    have hcast : (n : ℚ) ≤ m := by exact_mod_cast hle
    have hpos : (0 : ℚ) < n := by exact_mod_cast hn
    exact healthScore_anti hn (hn.trans hle) (by gcongr)
  · intro g options wider hwithin σ τ ask service ask' service' r' hr'
    exact Graph.health_within hwithin hr'

namespace Hub

def issue : Suggestion where
  id := "issue"
  kind := "tight-coupling"
  severity := "critical"
  entities := ["a", "b"]
  description := ""
  refactoring := ""
  estimate := default
  confidence := 0.9

/-- Dead code is looked for as well, and all issues are taken. -/
def wider : AdviceOptions where
  issueKinds := ["dead-code", "tight-coupling"]
  minConfidence := .whole 0

theorem within : options.Within wider := ⟨by decide, Or.inr (by decide +kernel)⟩

theorem exists_advice : ∃ r, graph.adviceIn ℚ wider none () = .ok r := by
  obtain ⟨found, hfound⟩ : ∃ found, graph.smells wider = .ok found := ⟨_, rfl⟩
  have hhealth := graph.adviceIn_health ℚ wider none ()
  rw [hfound] at hhealth
  obtain ⟨r, hr, -⟩ := map_eq_ok.mp hhealth
  exact ⟨r, hr⟩

end Hub

theorem health_falls_with_issues_hub :
    healthScore ℚ [Hub.issue] (4 : ℕ) = 50 ∧
      healthScore ℚ [{ Hub.issue with entities := ["a", "c", "b"] }] (4 : ℕ) ≤ 50 ∧
      50 ≤ healthScore ℚ [Hub.issue] (5 : ℕ) ∧
      ∃ r r', Hub.graph.adviceIn ℚ Hub.wider none () = .ok r' ∧
        Hub.graph.adviceIn ℚ Hub.options (some Hub.ask) () = .ok r ∧
        r'.1.health ≤ r.1.health := by
  obtain ⟨-, hscore, -, -, hentity, hnodes, hadvice⟩ := health_falls_with_issues [Hub.issue] 4
  have hweight : issueHalves [Hub.issue] = 40 := by decide
  have hfifty : healthScore ℚ [Hub.issue] (4 : ℕ) = 50 := by
    rw [hscore (by decide), hweight]
    norm_num
  obtain ⟨r', hr'⟩ := Hub.exists_advice
  obtain ⟨r, hr, hle⟩ :=
    hadvice Hub.graph Hub.options Hub.wider Hub.within Unit Unit (some Hub.ask) () none () r' hr'
  exact ⟨hfifty, hfifty ▸ hentity [] Hub.issue [] rfl ["a"] "c" ["b"] rfl,
    hfifty ▸ hnodes 5 (by decide) (by decide), r, r', hr', hr, hle⟩

end CodeAtlas
