import CodeAtlas.Json.Value

/-!
# Suggestions and health

* `Suggestion`: an issue of the architecture and what to do about it.
* `enhance`: suggestions in better words.
* `healthScore`: from a hundred down to zero, by the weight of the issues for each node.
-/

namespace CodeAtlas

/-! ## Suggestions -/

/-- What a change would affect. -/
structure Estimate where
  filesAffected : Amount
  testCoverage : Float
  riskLevel : String
deriving Inhabited

/-- An issue, and what to do about it. -/
structure Suggestion where
  id : String
  kind : String
  severity : String
  entities : List String
  description : String
  refactoring : String
  estimate : Estimate
  confidence : Float
  references : List String := []
deriving Inhabited

/-- The estimate as a record. -/
def Estimate.record (e : Estimate) : Json :=
  .record
    [("files_affected", .ofAmount e.filesAffected), ("test_coverage", .float e.testCoverage),
      ("risk_level", .str e.riskLevel)]

/-- The suggestion as a record. -/
def Suggestion.record (s : Suggestion) : Json :=
  .record
    [("id", .str s.id), ("type", .str s.kind), ("severity", .str s.severity),
      ("entities", .strs s.entities), ("description", .str s.description),
      ("suggested_refactoring", .str s.refactoring), ("estimated_impact", s.estimate.record),
      ("confidence", .float s.confidence), ("references", .strs s.references)]

/-- Twice the weight of a severity. -/
def severityHalves (severity : String) : Nat :=
  match severity with
  | "critical" => 20
  | "error" => 10
  | "warning" => 4
  | "info" => 1
  | _ => 2

/-- The weight of a severity, which is whole unless it is a half. -/
def severityWeight {K : Type} [Arith K] (severity : String) : K :=
  let halves := severityHalves severity
  if halves % 2 = 0 then Arith.nat (halves / 2) else Arith.ratio halves 2

/-- Heavier issues first; issues of one weight keep their order. -/
def bySeverity {α : Type} (severity : α → String) (xs : List α) : List α :=
  xs.mergeSort fun a b => decide (severityHalves (severity b) ≤ severityHalves (severity a))

/-- The issue is an error or worse. -/
def Suggestion.isUrgent (s : Suggestion) : Bool := s.severity == "error" || s.severity == "critical"

/-! ## Enhanced suggestions

A text service may answer, stay silent, run out of time or fail; only an answer with words in it
changes anything, and only the wording. -/

/-- The prompt for advice on an issue. -/
def refactoringPrompt (kind description : String) (entities : List String) : String :=
  "Provide specific refactoring steps for this code architecture issue:\n\nIssue Type: " ++ kind ++
    "\nDescription: " ++ description ++ "\nAffected Files: " ++
    Text.joinWith ", " (entities.take 5) ++ "\n\nProvide 3-5 concrete, actionable steps."

/-- The prompt for a suggestion. -/
def Suggestion.prompt (s : Suggestion) : String :=
  refactoringPrompt s.kind s.description s.entities

/-- What a service of advice replies. -/
inductive AdviceReply where
  | text (s : String)
  | nothing
  | timedOut
  | failed

/-- The words of a reply, if there are any. -/
def AdviceReply.words? : AdviceReply → Option String
  | .text s => if s.isEmpty then none else some s
  | _ => none

/-- A service that is asked in turn. -/
abbrev AdviceService (σ : Type) : Type := String → σ → AdviceReply × σ

/-- Suggestions with what was asked about them. -/
structure Enhancement (σ : Type) where
  suggestions : List Suggestion
  prompts : List String
  rewritten : Nat
  service : σ

/-- How many suggestions are asked about. -/
def enhancedAtMost : Nat := 5

/-- The places of the suggestions to ask about. -/
def enhancedPlaces (suggestions : List Suggestion) : List Nat :=
  let urgent := suggestions.zipIdx.filter (·.1.isUrgent)
  ((bySeverity (fun entry : Suggestion × Nat => entry.1.severity) urgent).take enhancedAtMost).map
    (·.2)

/-- One suggestion asked about. -/
def enhanceAt {σ : Type} (ask : AdviceService σ) (e : Enhancement σ) (place : Nat) :
    Enhancement σ :=
  match e.suggestions[place]? with
  | none => e
  | some s =>
    let (reply, service) := ask s.prompt e.service
    let asked := { e with prompts := e.prompts ++ [s.prompt], service := service }
    match reply.words? with
    | none => asked
    | some words =>
      { asked with
        suggestions := e.suggestions.set place { s with refactoring := words }
        rewritten := e.rewritten + 1 }

/-- The urgent suggestions in better words. -/
def enhance {σ : Type} (ask : AdviceService σ) (service : σ) (suggestions : List Suggestion) :
    Enhancement σ :=
  (enhancedPlaces suggestions).foldl (enhanceAt ask) ⟨suggestions, [], 0, service⟩

/-! ## Health -/

/-- The weight of all issues, each counted once for every entity in it. -/
def penalty {K : Type} [Arith K] (suggestions : List Suggestion) : K :=
  Arith.sum (suggestions.map fun s => severityWeight s.severity * Arith.nat s.entities.length)

/-- A hundred less the penalty in percent of ten a node, not below zero. -/
def healthLeft {K : Type} [Arith K] (suggestions : List Suggestion) (nodes : Int) : K :=
  let lost : K := penalty suggestions / Arith.int (nodes * 10) * Arith.int 100
  Arith.max (Arith.real 0) (Arith.int 100 - lost)

/-- The health that is left, a half rounded up. -/
def healthScore (K : Type) [Arith K] (suggestions : List Suggestion) (nodes : Int) : Int :=
  if nodes = 0 then 100 else Arith.floor (healthLeft suggestions nodes + (Arith.ratio 1 2 : K))

/-- The score for any number of nodes, if it can be computed. -/
def healthScore? (suggestions : List Suggestion) (nodes : Int) : Except NumberFault Int :=
  if nodes = 0 then .ok 100
  else (healthLeft suggestions nodes + (Arith.ratio 1 2 : Computed)).floor?

/-- How many issues there are of each weight. -/
structure IssueCounts where
  total : Nat
  critical : Nat
  warning : Nat
  info : Nat

/-- The counts of suggestions. -/
def issueCounts (suggestions : List Suggestion) : IssueCounts where
  total := suggestions.length
  critical := suggestions.countP Suggestion.isUrgent
  warning := suggestions.countP (·.severity == "warning")
  info := suggestions.countP (·.severity == "info")

/-- The counts as a record. -/
def IssueCounts.record (c : IssueCounts) : Json :=
  .record
    [("total_issues", .nat c.total), ("critical_count", .nat c.critical),
      ("warning_count", .nat c.warning), ("info_count", .nat c.info)]

/-- The health in words. -/
def verdict (health : Int) : String :=
  let score := "(" ++ intText health ++ "/100)"
  if health ≥ 80 then "Overall architecture health is good " ++ score ++ "."
  else if health ≥ 60 then
    "Architecture health is moderate " ++ score ++ " with some areas for improvement."
  else "Architecture health needs attention " ++ score ++ " with several issues to address."

/-- A report in one sentence. -/
def healthSummary (suggestions : List Suggestion) (health : Int) : String :=
  if suggestions.isEmpty then
    "No significant architecture issues detected. The codebase appears well-structured."
  else
    let kinds := suggestions.map (·.kind)
    let found := kinds.eraseDups.map fun kind =>
      natText (kinds.count kind) ++ " " ++ Text.replaceChar '-' ' ' kind ++ " issue(s)"
    let urgent := suggestions.countP Suggestion.isUrgent
    Text.joinWith " "
      ([verdict health, "Found: " ++ Text.joinWith ", " found ++ "."] ++
        if urgent = 0 then []
        else ["Priority: Address " ++ natText urgent ++ " high-severity issue(s) first."])

end CodeAtlas
