import CodeAtlas.Graph.Search
import CodeAtlas.Proofs.Graph.Dependency
import Mathlib.Data.List.Basic

/-!
# Breadth-first search finds distances

Visiting the first node of a queue keeps the least length offered for every other node, as long as
the lengths in the queue do not fall and differ by one at most.

* `Steps r n a b`: a walk of `n` steps of `r` from `a` to `b`.
* `IsDistance r a b n`: the shortest walks from `a` to `b` have `n` steps.
* **`Graph.reachable_lists_distances`**: the distances in a graph, and their duality.
-/

namespace CodeAtlas

open Relation

/-! ## Walks and distances -/

inductive Steps (r : String → String → Prop) : ℕ → String → String → Prop
  | stay (a : String) : Steps r 0 a a
  | step {n : ℕ} {a b c : String} (h : r a b) (t : Steps r n b c) : Steps r (n + 1) a c

/-- The number of steps of the shortest walks. -/
def IsDistance (r : String → String → Prop) (a b : String) (n : ℕ) : Prop :=
  IsLeast {k | Steps r k a b} n

variable {r s : String → String → Prop} {a b c : String} {n : ℕ}

theorem Steps.concat (h : Steps r n a b) (t : r b c) : Steps r (n + 1) a c := by
  induction h with
  | stay a => exact .step t (.stay c)
  | step h _ ih => exact .step h (ih t)

theorem Steps.mono (hrs : ∀ x y, r x y → s x y) (h : Steps r n a b) : Steps s n a b := by
  induction h with
  | stay a => exact .stay a
  | step h _ ih => exact .step (hrs _ _ h) ih

theorem Steps.swap (h : Steps r n a b) : Steps (Function.swap r) n b a := by
  induction h with
  | stay a => exact .stay a
  | step h _ ih => exact ih.concat h

theorem steps_swap : Steps (Function.swap r) n b a ↔ Steps r n a b :=
  ⟨fun h => h.swap, fun h => h.swap⟩

theorem Steps.reflTransGen (h : Steps r n a b) : ReflTransGen r a b := by
  induction h with
  | stay a => exact .refl
  | step h _ ih => exact ih.head h

theorem reflTransGen_iff_steps : ReflTransGen r a b ↔ ∃ n, Steps r n a b := by
  constructor
  · intro h
    induction h with
    | refl => exact ⟨0, .stay a⟩
    | tail _ h ih =>
      obtain ⟨n, hn⟩ := ih
      exact ⟨n + 1, hn.concat h⟩
  · rintro ⟨n, h⟩
    exact h.reflTransGen

theorem isDistance_swap : IsDistance (Function.swap r) b a n ↔ IsDistance r a b n := by
  unfold IsDistance
  simp only [steps_swap]

theorem IsDistance.unique {m : ℕ} (h : IsDistance r a b n) (h' : IsDistance r a b m) : n = m :=
  IsLeast.unique h h'

theorem isDistance_self : IsDistance r a a n ↔ n = 0 := by
  have h : IsDistance r a a 0 := ⟨.stay a, fun _ _ => Nat.zero_le _⟩
  exact ⟨fun h' => h'.unique h, fun e => e ▸ h⟩

theorem Steps.eq_of_stuck (hr : ∀ x, ¬ r a x) (h : Steps r n a b) : a = b := by
  cases h with
  | stay => rfl
  | step h _ => exact absurd h (hr _)

/-! ## The queue -/

/-- A step to a listed successor inside an area. -/
def Inside (next : String → List String) (area : List String) (a b : String) : Prop :=
  b ∈ next a ∧ b ∈ area

/-- The node ends a path of the queue prolonged over fresh nodes to the length. -/
def Offers (next : String → List String) (fresh : List String) (queue : List (String × List String))
    (n : String) (k : ℕ) : Prop :=
  ∃ node path j, (node, path) ∈ queue ∧ node ∈ fresh ∧ Steps (Inside next fresh) j node n ∧
    path.length + j = k

/-- The lengths do not fall along the queue and differ by one at most. -/
def Ordered (queue : List (String × List String)) : Prop :=
  queue.Pairwise (fun e f => e.2.length ≤ f.2.length) ∧
    ∀ e ∈ queue, ∀ f ∈ queue, f.2.length ≤ e.2.length + 1

section Search

variable {next : String → List String} {bound : Option ℤ} {fresh : List String} {node n : String}
  {path : List String} {rest : List (String × List String)} {j k : ℕ}

/-! ## One visit -/

theorem steps_avoid_or_from (node : String) {m : String} (h : Steps (Inside next fresh) j m n)
    (hm : m ∈ fresh) (hn : n ≠ node) :
    (m ≠ node ∧ Steps (Inside next (without fresh node)) j m n) ∨
      ∃ b i, i < j ∧ b ∈ next node ∧ b ∈ without fresh node ∧
        Steps (Inside next (without fresh node)) i b n := by
  induction h with
  | stay a => exact Or.inl ⟨hn, .stay a⟩
  | @step i a b c hab t ih =>
    rcases ih hab.2 hn with ⟨hb, hw⟩ | ⟨d, i', hi, hd, hd', hw⟩
    · have hb' : b ∈ without fresh node := mem_without.mpr ⟨hab.2, hb⟩
      by_cases ha : a = node
      · exact Or.inr ⟨b, i, Nat.lt_succ_self i, ha ▸ hab.1, hb', hw⟩
      · exact Or.inl ⟨ha, .step ⟨hab.1, hb'⟩ hw⟩
    · exact Or.inr ⟨d, i', by omega, hd, hd', hw⟩

theorem Ordered.head_le (h : Ordered ((node, path) :: rest)) {e : String × List String}
    (he : e ∈ rest) : path.length ≤ e.2.length :=
  (List.pairwise_cons.mp h.1).1 e he

theorem Ordered.tail (h : Ordered ((node, path) :: rest)) : Ordered rest :=
  ⟨(List.pairwise_cons.mp h.1).2, fun e he f hf =>
    h.2 e (List.mem_cons_of_mem _ he) f (List.mem_cons_of_mem _ hf)⟩

theorem Ordered.visit (h : Ordered ((node, path) :: rest)) (ns : List String) :
    Ordered (rest ++ ns.map fun n => (n, n :: path)) := by
  have hlen : ∀ e ∈ ns.map (fun n => (n, n :: path)), e.2.length = path.length + 1 := by
    intro e he
    obtain ⟨n, _, rfl⟩ := List.mem_map.mp he
    rfl
  have hrest : ∀ e ∈ rest, path.length ≤ e.2.length ∧ e.2.length ≤ path.length + 1 := fun e he =>
    ⟨h.head_le he, h.2 (node, path) List.mem_cons_self e (List.mem_cons_of_mem _ he)⟩
  refine ⟨List.pairwise_append.mpr ⟨h.tail.1, ?_, fun e he f hf => ?_⟩, fun e he f hf => ?_⟩
  · exact List.pairwise_of_forall_mem_list fun e he f hf => by rw [hlen e he, hlen f hf]
  · rw [hlen f hf]
    exact (hrest e he).2
  · rcases List.mem_append.mp he with he | he <;> rcases List.mem_append.mp hf with hf | hf
    · exact h.tail.2 e he f hf
    · have := hrest e he
      have := hlen f hf
      omega
    · have := hrest f hf
      have := hlen e he
      omega
    · have := hlen e he
      have := hlen f hf
      omega

theorem Offers.head_le (h : Ordered ((node, path) :: rest))
    (ho : Offers next fresh ((node, path) :: rest) n k) : path.length ≤ k := by
  obtain ⟨m, p, i, hm, _, _, rfl⟩ := ho
  rcases List.mem_cons.mp hm with e | hm
  · obtain ⟨rfl, rfl⟩ := Prod.mk.inj e
    omega
  · have := h.head_le hm
    simp only at this
    omega

theorem keepsTo_of_le {m : ℕ} (h : keepsTo bound m = true) (hk : k ≤ m) :
    keepsTo bound k = true := by
  cases bound with
  | none => rfl
  | some most =>
    simp only [keepsTo, decide_eq_true_iff] at h ⊢
    omega

theorem offers_cons_of_skip (hs : ¬ (node ∈ fresh ∧ keepsTo bound (path.length - 1) = true))
    (hk : keepsTo bound (k - 1) = true) :
    Offers next fresh ((node, path) :: rest) n k ↔ Offers next fresh rest n k := by
  constructor
  · rintro ⟨m, p, i, hm, hf, hw, rfl⟩
    rcases List.mem_cons.mp hm with e | hm
    · obtain ⟨rfl, rfl⟩ := Prod.mk.inj e
      exact absurd ⟨hf, keepsTo_of_le hk (by omega)⟩ hs
    · exact ⟨m, p, i, hm, hf, hw, rfl⟩
  · rintro ⟨m, p, i, hm, hf, hw, hk⟩
    exact ⟨m, p, i, List.mem_cons_of_mem _ hm, hf, hw, hk⟩

def queueAfter (next : String → List String) (fresh : List String) (node : String)
    (path : List String) (rest : List (String × List String)) : List (String × List String) :=
  rest ++ ((next node).filter (· ∈ without fresh node)).map fun n => (n, n :: path)

theorem Offers.of_visit (hnode : node ∈ fresh)
    (h : Offers next (without fresh node) (queueAfter next fresh node path rest) n k) :
    Offers next fresh ((node, path) :: rest) n k := by
  obtain ⟨m, p, i, hm, hf, hw, hk⟩ := h
  have hw' : Steps (Inside next fresh) i m n :=
    hw.mono fun x y hxy => ⟨hxy.1, (mem_without.mp hxy.2).1⟩
  have hf' : m ∈ fresh := (mem_without.mp hf).1
  rcases List.mem_append.mp hm with hm | hm
  · exact ⟨m, p, i, List.mem_cons_of_mem _ hm, hf', hw', hk⟩
  · obtain ⟨b, hb, e⟩ := List.mem_map.mp hm
    obtain ⟨rfl, rfl⟩ := Prod.mk.inj e
    refine ⟨node, path, i + 1, List.mem_cons_self, hnode,
      .step ⟨(List.mem_filter.mp hb).1, hf'⟩ hw', ?_⟩
    rw [List.length_cons] at hk
    omega

theorem Offers.visit (hq : Ordered ((node, path) :: rest)) (hn : n ≠ node)
    (h : Offers next fresh ((node, path) :: rest) n k) :
    ∃ k' ≤ k, Offers next (without fresh node) (queueAfter next fresh node path rest) n k' := by
  obtain ⟨m, p, i, hm, hf, hw, hk⟩ := h
  have hp : path.length ≤ p.length := by
    rcases List.mem_cons.mp hm with e | hm
    · rw [(Prod.mk.inj e).2]
    · exact hq.head_le hm
  rcases steps_avoid_or_from node hw hf hn with ⟨hne, hw'⟩ | ⟨b, i', hi, hb, hb', hw'⟩
  · have hm' : (m, p) ∈ rest := by
      rcases List.mem_cons.mp hm with e | hm
      · exact absurd (Prod.mk.inj e).1 hne
      · exact hm
    exact ⟨k, le_rfl, m, p, i, List.mem_append_left _ hm', mem_without.mpr ⟨hf, hne⟩, hw', hk⟩
  · refine ⟨path.length + 1 + i', by omega, b, b :: path, i', ?_, hb', hw', rfl⟩
    refine List.mem_append_right _ (List.mem_map.mpr ⟨b, ?_, rfl⟩)
    exact List.mem_filter.mpr ⟨hb, decide_eq_true hb'⟩

/-! ## The whole search -/

variable {queue : List (String × List String)}

theorem exploreFrom_visit (h : node ∈ fresh ∧ keepsTo bound (path.length - 1) = true) :
    exploreFrom next bound fresh ((node, path) :: rest) =
      (node, path) ::
        exploreFrom next bound (without fresh node) (queueAfter next fresh node path rest) := by
  rw [exploreFrom, if_pos h, queueAfter]

theorem exploreFrom_skip (h : ¬ (node ∈ fresh ∧ keepsTo bound (path.length - 1) = true)) :
    exploreFrom next bound fresh ((node, path) :: rest) = exploreFrom next bound fresh rest := by
  rw [exploreFrom, if_neg h]

theorem mem_fresh_of_mem_exploreFrom (h : (n, path) ∈ exploreFrom next bound fresh queue) :
    n ∈ fresh ∧ keepsTo bound (path.length - 1) = true := by
  induction fresh, queue using exploreFrom.induct next bound with
  | case1 fresh => simp [exploreFrom] at h
  | case2 fresh node p rest hv others ih =>
    rw [exploreFrom_visit hv, List.mem_cons] at h
    rcases h with e | h
    · obtain ⟨rfl, rfl⟩ := Prod.mk.inj e
      exact hv
    · exact ⟨(mem_without.mp (ih h).1).1, (ih h).2⟩
  | case3 fresh node p rest hs ih =>
    rw [exploreFrom_skip hs] at h
    exact ih h

theorem nodup_exploreFrom : ((exploreFrom next bound fresh queue).map (·.1)).Nodup := by
  induction fresh, queue using exploreFrom.induct next bound with
  | case1 fresh => simp [exploreFrom]
  | case2 fresh node path rest hv others ih =>
    rw [exploreFrom_visit hv, List.map_cons, List.nodup_cons]
    refine ⟨fun h => ?_, ih⟩
    obtain ⟨⟨m, p⟩, hm, rfl⟩ := List.mem_map.mp h
    exact (mem_without.mp (mem_fresh_of_mem_exploreFrom hm).1).2 rfl
  | case3 fresh node path rest hs ih =>
    rw [exploreFrom_skip hs]
    exact ih

theorem isLeast_of_mem_exploreFrom (hq : Ordered queue)
    (h : (n, path) ∈ exploreFrom next bound fresh queue) :
    IsLeast {k | Offers next fresh queue n k} path.length := by
  induction fresh, queue using exploreFrom.induct next bound with
  | case1 fresh => simp [exploreFrom] at h
  | case2 fresh node p rest hv others ih =>
    rw [exploreFrom_visit hv, List.mem_cons] at h
    rcases h with e | h
    · obtain ⟨rfl, rfl⟩ := Prod.mk.inj e
      exact ⟨⟨n, path, 0, List.mem_cons_self, hv.1, .stay n, rfl⟩, fun k hk => Offers.head_le hq hk⟩
    · have hne : n ≠ node := (mem_without.mp (mem_fresh_of_mem_exploreFrom h).1).2
      obtain ⟨hmem, hleast⟩ := ih (hq.visit _) h
      refine ⟨Offers.of_visit hv.1 hmem, fun k hk => ?_⟩
      obtain ⟨k', hk', ho⟩ := Offers.visit hq hne hk
      exact (hleast ho).trans hk'
  | case3 fresh node p rest hs ih =>
    rw [exploreFrom_skip hs] at h
    have hkeeps := (mem_fresh_of_mem_exploreFrom h).2
    obtain ⟨hmem, hleast⟩ := ih hq.tail h
    refine ⟨(offers_cons_of_skip hs hkeeps).mpr hmem, fun k hk => ?_⟩
    -- a shorter length would keep to the bound as well
    by_contra hlt
    exact hlt (hleast ((offers_cons_of_skip hs (keepsTo_of_le hkeeps (by omega))).mp hk))

theorem exists_mem_exploreFrom (hq : Ordered queue)
    (h : ∃ k, keepsTo bound (k - 1) = true ∧ Offers next fresh queue n k) :
    ∃ p, (n, p) ∈ exploreFrom next bound fresh queue := by
  induction fresh, queue using exploreFrom.induct next bound with
  | case1 fresh =>
    obtain ⟨k, _, m, p, i, hm, _⟩ := h
    exact absurd hm List.not_mem_nil
  | case2 fresh node p rest hv others ih =>
    rw [exploreFrom_visit hv]
    by_cases hne : n = node
    · exact ⟨p, by rw [hne]; exact List.mem_cons_self⟩
    · obtain ⟨k, hk, ho⟩ := h
      obtain ⟨k', hk', ho'⟩ := Offers.visit hq hne ho
      obtain ⟨p', hp'⟩ := ih (hq.visit _) ⟨k', keepsTo_of_le hk (by omega), ho'⟩
      exact ⟨p', List.mem_cons_of_mem _ hp'⟩
  | case3 fresh node p rest hs ih =>
    rw [exploreFrom_skip hs]
    obtain ⟨k, hk, ho⟩ := h
    exact ih hq.tail ⟨k, hk, (offers_cons_of_skip hs hk).mp ho⟩

theorem pairwise_exploreFrom (hq : Ordered queue) :
    (exploreFrom next bound fresh queue).Pairwise fun e f => e.2.length ≤ f.2.length := by
  induction fresh, queue using exploreFrom.induct next bound with
  | case1 fresh => simp [exploreFrom]
  | case2 fresh node p rest hv others ih =>
    rw [exploreFrom_visit hv, List.pairwise_cons]
    refine ⟨fun ⟨m, p'⟩ hm => ?_, ih (hq.visit _)⟩
    exact Offers.head_le hq (Offers.of_visit hv.1 (isLeast_of_mem_exploreFrom (hq.visit _) hm).1)
  | case3 fresh node p rest hs ih =>
    rw [exploreFrom_skip hs]
    exact ih hq.tail

end Search

/-! ## The search from a start -/

section Start

variable {next : String → List String} {bound : Option ℤ} {ids : List String} {start n : String}
  {k : ℕ}

theorem ordered_start (start : String) : Ordered [(start, [start])] :=
  ⟨List.pairwise_singleton _ _, fun e he f hf => by
    rw [List.mem_singleton.mp he, List.mem_singleton.mp hf]
    exact Nat.le_succ _⟩

theorem offers_start :
    Offers next (start :: ids) [(start, [start])] n (k + 1) ↔
      Steps (Inside next (start :: ids)) k start n := by
  constructor
  · rintro ⟨m, p, j, hm, _, hw, hk⟩
    obtain ⟨rfl, rfl⟩ := Prod.mk.inj (List.mem_singleton.mp hm)
    obtain rfl : j = k := by rw [List.length_singleton] at hk; omega
    exact hw
  · intro h
    exact ⟨start, [start], k, List.mem_cons_self, List.mem_cons_self, h, by
      rw [List.length_singleton]; omega⟩

theorem isDistance_of_mem_exploreFrom {path : List String}
    (h : (n, path) ∈ exploreFrom next bound (start :: ids) [(start, [start])]) :
    IsDistance (Inside next (start :: ids)) start n (path.length - 1) := by
  obtain ⟨hmem, hleast⟩ := isLeast_of_mem_exploreFrom (ordered_start start) h
  have hpos : 0 < path.length := Offers.head_le (ordered_start start) hmem
  obtain ⟨l, hl⟩ : ∃ l, path.length = l + 1 := ⟨path.length - 1, by omega⟩
  rw [hl] at hmem hleast ⊢
  refine ⟨offers_start.mp hmem, fun m hm => ?_⟩
  have := hleast (offers_start.mpr hm)
  omega

/-- **Reachability.** The search reaches what walks inside the listed nodes reach. -/
theorem mem_reached :
    n ∈ reached next ids start ↔ ReflTransGen (Inside next (start :: ids)) start n := by
  rw [reflTransGen_iff_steps, reached, List.mem_map]
  constructor
  · rintro ⟨⟨m, p⟩, hm, rfl⟩
    exact ⟨_, (isDistance_of_mem_exploreFrom hm).1⟩
  · rintro ⟨k, hk⟩
    have hb : keepsTo none (k + 1 - 1) = true := rfl
    obtain ⟨p, hp⟩ := exists_mem_exploreFrom (ordered_start start) ⟨k + 1, hb, offers_start.mpr hk⟩
    exact ⟨(n, p), hp, rfl⟩

/-- **Distance.** A node within the bound is listed with its distance. -/
theorem mem_within :
    (n, k) ∈ within next ids start bound ↔
      IsDistance (Inside next (start :: ids)) start n k ∧ keepsTo bound k = true := by
  rw [within, List.mem_map]
  constructor
  · rintro ⟨⟨m, p⟩, hm, e⟩
    obtain ⟨rfl, rfl⟩ := Prod.mk.inj e
    exact ⟨isDistance_of_mem_exploreFrom hm, (mem_fresh_of_mem_exploreFrom hm).2⟩
  · rintro ⟨h, hk⟩
    obtain ⟨p, hp⟩ := exists_mem_exploreFrom (ordered_start start) ⟨k + 1, hk, offers_start.mpr h.1⟩
    exact ⟨(n, p), hp, Prod.ext rfl ((isDistance_of_mem_exploreFrom hp).unique h)⟩

theorem nodup_within (bound : Option ℤ) : ((within next ids start bound).map (·.1)).Nodup := by
  rw [within, List.map_map]
  exact nodup_exploreFrom

theorem pairwise_within (bound : Option ℤ) :
    (within next ids start bound).Pairwise fun e f => e.2 ≤ f.2 := by
  rw [within, List.pairwise_map]
  exact (pairwise_exploreFrom (ordered_start start)).imp fun h => Nat.sub_le_sub_right h 1

end Start

/-! ## Distances in a graph -/

namespace Graph

variable {g : Graph} {s t n : String} {k : ℕ} {depth : ℤ}

theorem inside_ahead (g : Graph) (s : String) :
    Inside g.ahead.targets (s :: g.ids) = g.DependsOn := by
  funext a b
  rw [Inside, mem_ahead]
  exact propext ⟨fun h => h.1, fun h => ⟨h, List.mem_cons_of_mem _ h.target_mem⟩⟩

theorem inside_behind (g : Graph) (s : String) :
    Inside g.behind.targets (s :: g.ids) = Function.swap g.DependsOn := by
  funext a b
  rw [Inside, mem_behind]
  exact propext ⟨fun h => h.1, fun h => ⟨h, List.mem_cons_of_mem _ h.source_mem⟩⟩

theorem mem_reachable :
    (n, k) ∈ g.reachable s depth ↔ IsDistance g.DependsOn s n k ∧ (k : ℤ) ≤ depth := by
  rw [reachable, mem_within, inside_ahead, keepsTo, decide_eq_true_iff]

theorem mem_dependents :
    (n, k) ∈ g.dependents t depth ↔ IsDistance g.DependsOn n t k ∧ (k : ℤ) ≤ depth := by
  rw [dependents, mem_within, inside_behind, isDistance_swap, keepsTo, decide_eq_true_iff]

theorem reachable_of_notMem (hs : s ∉ g.ids) (hd : 0 ≤ depth) : g.reachable s depth = [(s, 0)] := by
  have hmem : ∀ e, e ∈ g.reachable s depth ↔ e = (s, 0) := by
    rintro ⟨n, k⟩
    rw [mem_reachable, Prod.mk.injEq]
    constructor
    · rintro ⟨hk, _⟩
      obtain rfl := hk.1.eq_of_stuck fun x hx => hs hx.source_mem
      exact ⟨rfl, isDistance_self.mp hk⟩
    · rintro ⟨rfl, rfl⟩
      exact ⟨isDistance_self.mpr rfl, by simpa using hd⟩
  have hnodup : (g.reachable s depth).Nodup := List.Nodup.of_map _ (nodup_within _)
  rw [← List.perm_singleton, List.perm_ext_iff_of_nodup hnodup (List.nodup_singleton _)]
  simpa using hmem

theorem reachable_of_neg (hd : depth < 0) : g.reachable s depth = [] := by
  rw [List.eq_nil_iff_forall_not_mem]
  rintro ⟨n, k⟩ h
  have := (mem_reachable.mp h).2
  omega

/-- **Distances.** The nodes within a bound are listed once each with their distance, in order; and
a node is a dependent of another one exactly if it reaches it so. -/
theorem reachable_lists_distances (g : Graph) (s t : String) (depth : ℤ) :
    (∀ n k, (n, k) ∈ g.reachable s depth ↔ IsDistance g.DependsOn s n k ∧ (k : ℤ) ≤ depth) ∧
    ((g.reachable s depth).map (·.1)).Nodup ∧
    (g.reachable s depth).Pairwise (fun e f => e.2 ≤ f.2) ∧
    (s ∉ g.ids → 0 ≤ depth → g.reachable s depth = [(s, 0)]) ∧
    (depth < 0 → g.reachable s depth = []) ∧
    ∀ k, (s, k) ∈ g.dependents t depth ↔ (t, k) ∈ g.reachable s depth := by
  refine ⟨fun n k => mem_reachable, nodup_within _, pairwise_within _,
    reachable_of_notMem, reachable_of_neg, fun k => ?_⟩
  rw [mem_dependents, mem_reachable]

end Graph

end CodeAtlas
