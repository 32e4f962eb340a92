import CodeAtlas.Advice.Suggestion
import CodeAtlas.Graph.Components

/-!
# Smells

Each detector reads the dependencies of a graph and lists suggestions. Edges of containment play no
part in any of them.
-/

namespace CodeAtlas

/-- Numbered steps under a heading. -/
def steps (heading : String) (lines : List String) : String :=
  Text.joinWith "\n"
    (heading :: lines.zipIdx.map fun (line, i) => natText (i + 1) ++ ". " ++ line)

/-- The edges that are no containment, as they are listed. -/
def Graph.uses (g : Graph) : List Edge := g.edges.filter (·.kind != containment)

namespace Smell

/-! ## Cycles -/

/-- The suggestion for a cycle. -/
def ofCycle (cycle : List String) : Suggestion :=
  let length := cycle.length
  let preview := Text.joinWith " → " (cycle.take 3) ++ (if length > 3 then " → ..." else "")
  { id := "circular-" ++ String.ofList ((Text.joinWith "-" cycle).toList.take 50)
    kind := "circular-dependency"
    severity := if length > 3 then "error" else "warning"
    entities := cycle
    description :=
      "Circular dependency detected involving " ++ natText length ++ " files: " ++ preview
    refactoring := steps "Break the cycle by:"
      ["Extracting shared dependencies to a common module", "Using dependency injection",
        "Inverting one of the dependencies using interfaces"]
    estimate := ⟨.whole length, 0.7, if length > 4 then "high" else "medium"⟩
    confidence := 0.95
    references := ["https://en.wikipedia.org/wiki/Circular_dependency"] }

/-- The cycles of more than one node. -/
def circularDependencies (g : Graph) : List Suggestion :=
  (g.cycles.filter fun cycle => decide (2 ≤ cycle.length)).map ofCycle

/-! ## God classes -/

/-- The hundreds that hold an amount, the last one perhaps in part. -/
def hundreds : Amount → Amount
  | .real x =>
    match Binary.ofFloat? x with
    | none => .real (0 / 0)
    | some b =>
      let (num, den) := b.ratio 0
      .real (nearestWhole (-(Int.fdiv (-(signedInt b.negative num)) (100 * den))))
  | a => .whole (-(Int.fdiv (-(a.whole?.getD 0)) 100))

/-- The amount, zero if there is none. -/
def orZero (a : Option Amount) : Amount := (a.filter (!·.isZero)).getD (.whole 0)

/-- Why a class is too complex; a number beyond all real ones cannot be said. -/
def complexityReason (complexity : Amount) : Except NumberFault (List String) := do
  return ["high complexity (" ++ (← complexity.computed.generalText) ++ ")"]

/-- The suggestion for a class that is too big, if it is. -/
def ofClass? (n : Node) (users : Nat) : Except NumberFault (Option Suggestion) := do
  let lines := orZero n.metrics.linesOfCode
  let complexity := orZero (some n.metrics.complexity)
  let large := Amount.below (.whole 500) lines
  let complex := Amount.below (.whole 50) complexity
  let popular := decide (users > 10)
  let complexities ← if complex then complexityReason complexity else .ok []
  let reasons :=
    (if large then ["large size (" ++ lines.text ++ " lines)"] else []) ++ complexities ++
    (if popular then ["many dependents"] else [])
  return if reasons.isEmpty then none
  else some
    { id := "god-class-" ++ n.id
      kind := "god-class"
      severity := if large && complex then "error" else "warning"
      entities := [n.id]
      description := "`" ++ n.name ++ "` shows signs of being a god class: " ++
        Text.joinWith ", " reasons
      refactoring := steps "Consider splitting into smaller, focused classes:"
        ["Identify distinct responsibilities", "Extract related methods into new classes",
          "Use composition over inheritance", "Apply Single Responsibility Principle"]
      estimate := ⟨hundreds lines, 0.6, if large && complex then "high" else "medium"⟩
      confidence := 0.8 }

/-- The classes that are too big. -/
def godClasses (g : Graph) : Except NumberFault (List Suggestion) := do
  let uses := g.uses
  let found ← (g.nodes.filter (·.kind == "class")).mapM fun n =>
    ofClass? n (uses.countP (·.target == n.id))
  return found.reduceOption

/-! ## Coupling -/

/-- The suggestion for a file with many dependencies. -/
def ofDependencies? (n : Node) (targets : List String) : Option Suggestion :=
  let count := targets.length
  if count > 15 then some
    { id := "tight-coupling-efferent-" ++ n.id
      kind := "tight-coupling"
      severity := if count > 25 then "error" else "warning"
      entities := n.id :: targets.take 5
      description := "`" ++ n.name ++ "` has high efferent coupling (" ++ natText count ++
        " dependencies)"
      refactoring := steps "Reduce dependencies by:"
        ["Using dependency injection", "Creating facades for related dependencies",
          "Breaking into smaller, focused modules",
          "Using interfaces instead of concrete implementations"]
      estimate := ⟨.whole count, 0.5, "medium"⟩
      confidence := 0.85 }
  else none

/-- The suggestion for a file with many users. -/
def ofUsers? (n : Node) (targets : List String) (users : Nat) : Option Suggestion :=
  let count := targets.length
  let instability : Float := Arith.nat count / Arith.nat (max (users + count) 1)
  if users > 10 && decide (instability > 0.5) then some
    { id := "tight-coupling-fragile-" ++ n.id
      kind := "tight-coupling"
      severity := "warning"
      entities := [n.id]
      description := "`" ++ n.name ++ "` is a fragile dependency (" ++ natText users ++
        " dependents, instability: " ++ fixedText 2 instability ++ ")"
      refactoring := steps "Stabilize this component by:"
        ["Reducing its own dependencies", "Using abstract interfaces",
          "Moving volatile parts to dependent modules"]
      estimate := ⟨.whole users, 0.7, "medium"⟩
      confidence := 0.75 }
  else none

/-- The files coupled to too many others. -/
def tightCouplings (g : Graph) : List Suggestion :=
  let uses := g.uses
  (g.nodes.filter (·.kind == "file")).flatMap fun n =>
    let targets := (uses.filter (·.source == n.id)).map (·.target)
    let users := uses.countP (·.target == n.id)
    (ofDependencies? n targets).toList ++ (ofUsers? n targets users).toList

/-! ## Dead code -/

/-- Names of files that are run, not used. -/
def entryPoints : List String := ["index", "main", "app", "server", "cli"]

/-- The node is where a program starts. -/
def isEntryPoint (n : Node) : Bool :=
  let name := Text.lower n.name
  entryPoints.any (Text.hasPart name ·) || Text.hasPart n.path "index" ||
    Text.startsWith n.name "export"

/-- The suggestion for what nothing uses. -/
def ofUnused (n : Node) : Suggestion where
  id := "dead-code-" ++ n.id
  kind := "dead-code"
  severity := "info"
  entities := [n.id]
  description := "`" ++ n.name ++ "` in `" ++ n.path ++ "` appears to be unused"
  refactoring := steps "If this code is truly unused:"
    ["Remove the code", "If keeping for future use, add a TODO comment",
      "Consider moving to a separate \"deprecated\" module"]
  estimate := ⟨.whole 1, 0.9, "low"⟩
  confidence := 0.6

/-- The functions and classes that nothing uses. -/
def deadCode (g : Graph) : List Suggestion :=
  let uses := g.uses
  (g.nodes.filter fun n =>
    (n.kind == "function" || n.kind == "class") && !isEntryPoint n &&
      !uses.any (·.target == n.id)).map ofUnused

/-! ## Feature envy -/

/-- The suggestion for a function that uses another file most. -/
def ofEnvy (n : Node) (path : String) (count : Nat) : Suggestion where
  id := "feature-envy-" ++ n.id ++ "-" ++ path
  kind := "feature-envy"
  severity := "info"
  entities := [n.id, path]
  description := "`" ++ n.name ++ "` makes " ++ natText count ++ " calls to `" ++ path ++
    "`, suggesting feature envy"
  refactoring := steps "Consider:"
    ["Moving this method to " ++ path, "Extracting the related logic into " ++ path,
      "Creating a new class that encapsulates both"]
  estimate := ⟨.whole 2, 0.8, "low"⟩
  confidence := 0.7

/-- The paths of other files that an element calls, once for each call. -/
def foreignCalls (g : Graph) (n : Node) : List String :=
  (g.uses.filter fun e => e.source == n.id && e.kind == "calls").filterMap fun e =>
    ((g.node? e.target).map (·.path)).filter (· != n.path)

/-- The functions that use another file most. -/
def featureEnvies (g : Graph) : List Suggestion :=
  (g.nodes.filter fun n => n.kind == "method" || n.kind == "function").flatMap fun n =>
    let calls := foreignCalls g n
    (calls.eraseDups.filter fun path => decide (3 ≤ calls.count path)).map fun path =>
      ofEnvy n path (calls.count path)

/-! ## Missing abstractions -/

/-- The suggestion for a group that depends on itself. -/
def ofComponent (members : List String) : Suggestion where
  id := "missing-abstraction-" ++ Text.joinWith "-" (members.take 3)
  kind := "missing-abstraction"
  severity := "info"
  entities := members
  description := natText members.length ++
    " tightly coupled components might benefit from a shared abstraction"
  refactoring := steps "Consider:"
    ["Extracting common interfaces", "Creating a base class or mixin",
      "Using a shared utility module"]
  estimate := ⟨.whole members.length, 0.6, "medium"⟩
  confidence := 0.65

/-- The components of three nodes or more. -/
def missingAbstractions (g : Graph) : List Suggestion :=
  (g.components.filter fun members => decide (3 ≤ members.length)).map ofComponent

end Smell

end CodeAtlas
