import CodeAtlas.Advice.Smell
import CodeAtlas.Assembly.Build

/-!
# Architecture reports

* `AdviceOptions`: which issues are looked for.
* `AdviceReport`: the suggestions with their score, counts and summary.
* `Graph.advice`, `Workspace.advice`: the report on a graph, and on a repository.
-/

namespace CodeAtlas

/-! ## Architecture reports -/

/-- Which issues are looked for, and where. -/
structure AdviceOptions where
  targetPath : Option String := none
  issueKinds : List String := ["circular-dependency", "god-class", "tight-coupling", "dead-code"]
  minConfidence : Amount := .real 0.5
  enhanced : Bool := false

/-- The outcome of a search for issues. -/
structure AdviceReport where
  suggestions : List Suggestion
  health : Int
  counts : IssueCounts
  summary : String

/-- The report as a record. -/
def AdviceReport.record (r : AdviceReport) : Json :=
  .record
    [("suggestions", .arr (r.suggestions.map Suggestion.record)), ("health_score", .int r.health),
      ("statistics", r.counts.record), ("summary", .str r.summary)]

/-- The detectors, each with its kind of issue, in the order of their runs. -/
def detectors : List (String × (Graph → Except NumberFault (List Suggestion))) :=
  [("circular-dependency", fun g => .ok (Smell.circularDependencies g)),
    ("god-class", Smell.godClasses),
    ("tight-coupling", fun g => .ok (Smell.tightCouplings g)),
    ("dead-code", fun g => .ok (Smell.deadCode g)),
    ("feature-envy", fun g => .ok (Smell.featureEnvies g)),
    ("missing-abstraction", fun g => .ok (Smell.missingAbstractions g))]

/-- The issues of the kinds that are wanted. -/
def Graph.smells (g : Graph) (options : AdviceOptions) : Except NumberFault (List Suggestion) := do
  let wanted := detectors.filter fun d => options.issueKinds.contains d.1
  let found ← wanted.mapM fun d => d.2 g
  return found.flatten.filter fun s => Amount.atLeast (.real s.confidence) options.minConfidence

/-- The report on suggestions that were found in a graph of so many nodes. -/
def reportIn (K : Type) [Arith K] (suggestions : List Suggestion) (nodes : Nat) : AdviceReport :=
  let health := healthScore K suggestions nodes
  let sorted := bySeverity (·.severity) suggestions
  { suggestions := sorted
    health := health
    counts := issueCounts sorted
    summary := healthSummary sorted health }

/-- The report with computed numbers. -/
def reportOn (suggestions : List Suggestion) (nodes : Nat) : AdviceReport :=
  reportIn Computed suggestions nodes

/-- The report on a graph, with the prompts and the service afterwards. -/
def Graph.adviceIn (K : Type) [Arith K] {σ : Type} (g : Graph) (options : AdviceOptions)
    (ask : Option (AdviceService σ)) (service : σ) :
    Except NumberFault (AdviceReport × List String × σ) := do
  let found ← g.smells options
  match ask, options.enhanced with
  | some ask, true =>
    let e := enhance ask service found
    return (reportIn K e.suggestions g.nodes.length, e.prompts, e.service)
  | _, _ => return (reportIn K found g.nodes.length, [], service)

/-- The report on a graph. -/
def Graph.advice {σ : Type} (g : Graph) (options : AdviceOptions)
    (ask : Option (AdviceService σ)) (service : σ) :
    Except NumberFault (AdviceReport × List String × σ) :=
  g.adviceIn Computed options ask service

/-! ## Architecture of a repository -/

/-- The graph that is looked at. -/
def AdviceOptions.build (o : AdviceOptions) : BuildOptions where
  rootFile := (o.targetPath.filter (!·.isEmpty)).getD "."
  depth := 10
  filter :=
    { nodeKinds := ["file", "function", "class"]
      edgeKinds := ["imports", "calls", "extends", "implements"] }

/-- A report, with what was searched and asked for it. -/
structure RepositoryAdvice (σ : Type) where
  report : Except BuildError AdviceReport
  searches : List Search
  prompts : List String
  service : σ

/-- The report on a repository. -/
def Workspace.advice {σ : Type} (w : Workspace) (repo : Path) (knowledge : KnowledgeSource)
    (options : AdviceOptions) (ask : Option (AdviceService σ)) (service : σ) :
    RepositoryAdvice σ :=
  let built := w.buildGraph repo knowledge options.build ""
  match built.graph with
  | .error e => ⟨.error e, built.searches, [], service⟩
  | .ok g =>
    match g.advice options ask service with
    | .error fault => ⟨.error (.number fault), built.searches, [], service⟩
    | .ok (report, prompts, service) => ⟨.ok report, built.searches, prompts, service⟩

end CodeAtlas
