import CodeAtlas.Advice.Report
import CodeAtlas.Proofs.Outcome

/-!
# Containment is no dependency

Edges of containment can be put into a graph or taken out of it, at any place among the other edges,
and no analysis and no advice changes.

* **`Graph.analyses_of_recontained`**: the analyses and the advice agree.
-/

namespace CodeAtlas

/-! ## Edges put in and taken out -/

/-- The second list is the first with edges of containment put in and taken out. -/
inductive Recontained : List Edge → List Edge → Prop
  | nil : Recontained [] []
  | keep {es es' : List Edge} (e : Edge) (h : Recontained es es') : Recontained (e :: es) (e :: es')
  | putIn {es es' : List Edge} (e : Edge) (he : e.kind = containment) (h : Recontained es es') :
      Recontained es (e :: es')
  | takeOut {es es' : List Edge} (e : Edge) (he : e.kind = containment) (h : Recontained es es') :
      Recontained (e :: es) es'

namespace Recontained

variable {es es' : List Edge}

theorem filter_eq (h : Recontained es es') :
    es'.filter (·.kind != containment) = es.filter (·.kind != containment) := by
  induction h with
  | nil => rfl
  | keep e _ ih => rw [List.filter_cons, List.filter_cons, ih]
  | putIn e he _ ih => simp [he, ih]
  | takeOut e he _ ih => simp [he, ih]

theorem of_filter_eq
    (h : es'.filter (·.kind != containment) = es.filter (·.kind != containment)) :
    Recontained es es' := by
  induction es generalizing es' with
  | nil =>
    induction es' with
    | nil => exact .nil
    | cons e' es' ih =>
      by_cases he' : e'.kind = containment
      · exact (ih (by simpa [he'] using h)).putIn e' he'
      · simp [he'] at h
  | cons e es ih =>
    by_cases he : e.kind = containment
    · exact (ih (by simpa [he] using h)).takeOut e he
    · -- the first edge of the other list that is no containment is `e`
      induction es' with
      | nil => simp [he] at h
      | cons e' es' ih' =>
        by_cases he' : e'.kind = containment
        · exact (ih' (by simpa [he'] using h)).putIn e' he'
        · rw [List.filter_cons_of_pos (by simpa using he'), List.filter_cons_of_pos
            (by simpa using he)] at h
          obtain ⟨rfl, hrest⟩ := List.cons.inj h
          exact (ih hrest).keep e'

end Recontained

theorem recontained_iff {es es' : List Edge} : Recontained es es' ↔
    es'.filter (·.kind != containment) = es.filter (·.kind != containment) :=
  ⟨Recontained.filter_eq, Recontained.of_filter_eq⟩

/-! ## Graphs that differ in containment -/

namespace Graph

/-- The graphs have the same nodes, and their edges differ in containment alone. -/
structure Recontained (g g' : Graph) : Prop where
  nodes : g'.nodes = g.nodes
  edges : CodeAtlas.Recontained g.edges g'.edges

namespace Recontained

variable {g g' : Graph}

theorem ids_eq (h : g.Recontained g') : g'.ids = g.ids := by rw [ids, h.nodes, ids]

theorem uses_eq (h : g.Recontained g') : g'.uses = g.uses := h.edges.filter_eq

theorem dependencies_eq (h : g.Recontained g') : g'.dependencies = g.dependencies := by
  have hswap : ∀ k : Graph, k.dependencies =
      (k.uses.filter k.holds).map fun e => (e.source, e.target) := fun k => by
    simp only [dependencies, uses, List.filter_filter, Bool.and_comm]
  have hholds : g'.holds = g.holds := by
    funext e
    rw [holds, holds, h.ids_eq]
  rw [hswap, hswap, h.uses_eq, hholds]

theorem ahead_eq (h : g.Recontained g') : g'.ahead = g.ahead := by
  rw [ahead, ahead, h.dependencies_eq]

theorem behind_eq (h : g.Recontained g') : g'.behind = g.behind := by
  rw [behind, behind, h.dependencies_eq]

/-! ## Analyses -/

theorem cycles_eq (h : g.Recontained g') : g'.cycles = g.cycles := by
  simp only [cycles, h.ahead_eq, h.ids_eq]

theorem components_eq (h : g.Recontained g') : g'.components = g.components := by
  simp only [components, h.ahead_eq, h.ids_eq]

theorem passageCounts_eq (h : g.Recontained g') : g'.passageCounts = g.passageCounts := by
  simp only [passageCounts, passages, h.ahead_eq, h.ids_eq]

/-! ## Advice -/

theorem foreignCalls_eq (h : g.Recontained g') (n : Node) :
    Smell.foreignCalls g' n = Smell.foreignCalls g n := by
  simp only [Smell.foreignCalls, node?, h.uses_eq, h.nodes]

theorem detector_eq (h : g.Recontained g') : ∀ d ∈ detectors, d.2 g' = d.2 g := by
  simp only [detectors, List.forall_mem_cons]
  refine ⟨?_, ?_, ?_, ?_, ?_, ?_, fun _ hd => nomatch hd⟩
  · simp only [Smell.circularDependencies, h.cycles_eq]
  · simp only [Smell.godClasses, h.uses_eq, h.nodes]
  · simp only [Smell.tightCouplings, h.uses_eq, h.nodes]
  · simp only [Smell.deadCode, h.uses_eq, h.nodes]
  · simp only [Smell.featureEnvies, h.foreignCalls_eq, h.nodes]
  · simp only [Smell.missingAbstractions, h.components_eq]

theorem smells_eq (h : g.Recontained g') (options : AdviceOptions) :
    g'.smells options = g.smells options := by
  have hfound : (detectors.filter fun d => options.issueKinds.contains d.1).mapM (fun d => d.2 g') =
      (detectors.filter fun d => options.issueKinds.contains d.1).mapM fun d => d.2 g :=
    mapM_congr fun d hd => h.detector_eq d (List.mem_of_mem_filter hd)
  simp only [smells, hfound]

end Recontained

/-- **Containment is invisible.** Two graphs whose edges differ in containment alone have the same
analyses, listed in the same order, and get the same advice. -/
theorem analyses_of_recontained {g g' : Graph} (h : g.Recontained g') :
    (∀ start depth, g'.reachable start depth = g.reachable start depth) ∧
    (∀ target depth, g'.dependents target depth = g.dependents target depth) ∧
    g'.cycles = g.cycles ∧
    g'.components = g.components ∧
    (∀ (K : Type) [Arith K] (damping : K) (rounds : Nat),
      g'.importance damping rounds = g.importance damping rounds) ∧
    (∀ start, g'.pathsFrom start = g.pathsFrom start) ∧
    (∀ (K : Type) [Arith K], (g'.betweenness : List (String × K)) = g.betweenness) ∧
    (∀ (σ : Type) (options : AdviceOptions) (ask : Option (AdviceService σ)) (service : σ),
      g'.advice options ask service = g.advice options ask service) := by
  refine ⟨fun start depth => ?_, fun target depth => ?_, h.cycles_eq, h.components_eq,
    fun K _ damping rounds => ?_, fun start => ?_, fun K _ => ?_, fun σ options ask service => ?_⟩
  · rw [reachable, reachable, h.ahead_eq, h.ids_eq]
  · rw [dependents, dependents, h.behind_eq, h.ids_eq]
  · simp only [importance, h.ahead_eq, h.behind_eq, h.ids_eq]
  · rw [pathsFrom, pathsFrom, h.ahead_eq, h.ids_eq]
  · simp only [betweenness, h.passageCounts_eq]
  · simp only [advice, adviceIn, h.smells_eq, h.nodes]

/-- Two files that import each other, with edges of containment before, between and behind. -/
def mutualImports (before between behind : List (String × String)) : Graph where
  nodes := [("file:a.py", "file"), ("file:b.py", "file"), ("function:a.py:f", "function")].map
    fun (id, kind) => { id := id, kind := kind, name := id, path := "a.py" }
  edges :=
    let inside := List.map fun x : String × String => Edge.between x.1 x.2 containment
    inside before ++ Edge.between "file:a.py" "file:b.py" "imports" :: (inside between ++
      Edge.between "file:b.py" "file:a.py" "imports" :: inside behind)
  metadata := { generatedAt := "" }

theorem analyses_of_mutualImports :
    let g := mutualImports [("file:a.py", "function:a.py:f")] [] []
    let g' := mutualImports [] [("file:b.py", "function:a.py:f")] [("function:a.py:f", "file:a.py")]
    g.Recontained g' ∧ g'.connections ≠ g.connections ∧ g'.cycles = g.cycles ∧
      ∀ options : AdviceOptions, g'.advice options none () = g.advice options none () := by
  intro g g'
  have h : g.Recontained g' := ⟨rfl, recontained_iff.mpr rfl⟩
  obtain ⟨-, -, hcycles, -, -, -, -, hadvice⟩ := analyses_of_recontained h
  exact ⟨h, by decide, hcycles, fun options => hadvice Unit options none ()⟩

end Graph

end CodeAtlas
