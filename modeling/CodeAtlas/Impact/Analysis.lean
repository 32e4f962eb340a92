import CodeAtlas.Impact.Spread

/-!
# The impact of a change

What a change of a symbol affects, and how much that matters.
-/

namespace CodeAtlas

/-! ## Criticality -/

/-- The path holds a marker. -/
def hasMarker (markers : List String) (path : String) : Bool := markers.any (Text.hasPart path ·)

/-- The file holds tests. -/
def isTestFile (path : String) : Bool :=
  let full := "/" ++ Text.replaceChar '\\' '/' path
  let name := (Text.splitOn '/' full).getLastD ""
  hasMarker [".test.", ".spec.", "__tests__", "/tests/"] full || Text.startsWith name "test_"

/-- The file is at the core. -/
def isCoreModule (path : String) : Bool :=
  hasMarker ["core", "main.", "index.", "app.", "server."] path

/-- The file holds settings. -/
def isConfigFile (path : String) : Bool := hasMarker ["config", ".config.", "webpack", "vite"] path

/-- The file serves others. -/
def isServiceFile (path : String) : Bool := hasMarker ["api", "service", "controller"] path

section

variable {K : Type} [Arith K]

/-- How much a file matters. -/
def fileCriticality (path : String) : K :=
  if isTestFile path then Arith.ratio 3 10
  else if isConfigFile path then Arith.ratio 1 2
  else if isCoreModule path then Arith.real 2
  else if isServiceFile path then Arith.ratio 3 2
  else Arith.real 1

/-- The score at a depth: a hundred next to the change, halved each step. -/
def depthScore (depth : Int) : K := Arith.overTwoTo (Arith.int 100) (depth - 1)

/-- The score of uses in a file at a depth; ten and more count alike. -/
def impactScore (depth uses : Int) (path : String) : K :=
  depthScore depth * (Arith.int (min uses 10) / Arith.int 10) * fileCriticality path

/-- The level of a score. -/
def impactLevel (score : K) (depth : Int) (path : String) : String :=
  if Arith.int 80 ≤ score ∧ depth = 1 ∧ isCoreModule path then "CRITICAL"
  else if Arith.int 50 ≤ score ∧ depth = 1 then "HIGH"
  else if Arith.int 20 ≤ score ∨ depth = 2 then "MEDIUM"
  else "LOW"

end

/-- The levels, the worst first. -/
def impactLevels : List String := ["CRITICAL", "HIGH", "MEDIUM", "LOW"]

/-- Why a file is affected. -/
def impactReason (depth : Int) (kinds : List String) (level root : String) : String :=
  let count := natText kinds.length
  let all := Text.joinWith "/" kinds.eraseDups
  let symbol := "`" ++ root ++ "`"
  if level == "CRITICAL" then
    "Core module with " ++ count ++ " direct " ++ all ++ " reference(s) to " ++ symbol ++
      ". Changes will require immediate attention."
  else if level == "HIGH" then
    "Direct caller with " ++ count ++ " " ++ all ++ " reference(s) to " ++ symbol ++
      ". Changes will likely break this code."
  else if level == "MEDIUM" then
    "Indirectly depends on " ++ symbol ++ " at depth " ++ intText depth ++ " with " ++ count ++
      " reference(s). Review may be needed."
  else
    "Minimal impact at depth " ++ intText depth ++ ". " ++ count ++
      " reference(s) found but unlikely to cause issues."

/-! ## The impact of a change -/

/-- One affected file, ranked. -/
structure Impact (K : Type) where
  symbol : String
  file : String
  level : String
  score : K
  usages : List Usage
  depth : Int
  reason : String

/-- What a change affects. -/
structure ImpactReport (K : Type) where
  symbol : String
  file : String
  total : K
  impacts : List (Impact K)
  depth : Int

/-- The impact as a record. -/
def Impact.record (i : Impact Computed) : Json :=
  .record
    [("symbol", .str i.symbol), ("file_path", .str i.file), ("impact_level", .str i.level),
      ("impact_score", .ofComputed i.score), ("usages", .arr (i.usages.map Usage.record)),
      ("depth", .int i.depth), ("reason", .str i.reason)]

/-- The report as a record. -/
def ImpactReport.record (r : ImpactReport Computed) (now : String) : Json :=
  .record
    [("target_symbol", .str r.symbol), ("target_file", .str r.file),
      ("total_impact", .ofComputed r.total), ("impacts", .arr (r.impacts.map Impact.record)),
      ("graph_depth", .int r.depth), ("analysis_timestamp", .str now)]

section

variable {K : Type} [Arith K]

/-- The entry as an impact. -/
def Affected.impact (a : Affected) (root : String) : Impact K :=
  let score : K := impactScore a.depth a.usages.length a.file
  let level := impactLevel score a.depth a.file
  { symbol := a.symbol
    file := a.file
    level := level
    score := Arith.round 2 score
    usages := a.usages
    depth := a.depth
    reason := impactReason a.depth (a.usages.map (·.kind)) level root }

/-- The affected files, the most affected first. -/
def rankImpacts (root : String) (affected : List Affected) : List (Impact K) :=
  (affected.map fun a => a.impact root).mergeSort fun a b => decide (b.score ≤ a.score)

/-- The report on impacts. -/
def reportImpacts (symbol file : String) (impacts : List (Impact K)) : ImpactReport K where
  symbol := symbol
  file := file
  total := Arith.round 2 (Arith.sum (impacts.map (·.score)))
  impacts := impacts
  depth := (impacts.map (·.depth)).foldl max 0

end

/-! ## Inquiries -/

/-- Why an inquiry fails. -/
inductive ImpactError where
  | notFound (symbol : String)
  /-- The knowledge source fails. -/
  | crashed
  /-- A hit has no details. -/
  | noDetails
  /-- Links lead in a circle. -/
  | lostPath
deriving DecidableEq

/-- The error in words. -/
def ImpactError.message : ImpactError → String
  | .notFound symbol => "Symbol '" ++ symbol ++ "' not found in codebase"
  | _ => ""

/-- An inquiry, with the searches it makes. -/
abbrev Inquiry (α : Type) : Type := ExceptT ImpactError (StateM (List Search)) α

/-- A path looked up for an inquiry. -/
def located {α : Type} (result : Except BuildError α) : Inquiry α :=
  match result with
  | .ok a => pure a
  | .error _ => throw .lostPath

/-- A search, none if it cannot be made. -/
def askFor (knowledge : KnowledgeSource) (query : String) (limit : Int) :
    Inquiry (Option (List Hit)) := do
  let search : Search := ⟨query, limit, some "code"⟩
  modify (· ++ [search])
  match knowledge search with
  | .ok hits => return some hits
  | .error (.unavailable _) => return none
  | .error .crashed => throw .crashed

/-- The text of a detail. -/
def textDetail (hit : Hit) (name : String) : Inquiry (Option String) :=
  match hit.details with
  | none => throw .noDetails
  | some details => return (Table.get? details name).bind Json.filledStr?

/-- The file that changes, as its path in the repository. -/
def normalTarget (w : Workspace) (repo : Path) (file : String) : Inquiry String :=
  let path := Path.ofText file
  if path.isAbsolute then located (w.relative repo path)
  else return normalPath (Text.replaceChar '\\' '/' file)

/-- The first file that defines a symbol. -/
def definingFile? (w : Workspace) (repo : Path) (symbol : String) : Option Path :=
  match w.sourceFiles repo none with
  | .error _ => none
  | .ok files =>
    files.find? fun path =>
      match w.outline path.text with
      | .ok (some o) => o.entities.any (·.name == symbol)
      | _ => false

/-- The file that defines a symbol. -/
def definitionOf (w : Workspace) (repo : Path) (knowledge : KnowledgeSource) (symbol : String) :
    Inquiry (Option String) := do
  let hits := (← askFor knowledge ("definition of " ++ symbol) 5).getD []
  let told ← match hits with
    | [] => pure none
    | hit :: _ => textDetail hit "file_path"
  match told with
  | some file => return some file
  | none =>
    match definingFile? w repo symbol with
    | none => return none
    | some path => return some (← located (w.relative repo path))

/-- The use that a hit reports. -/
def reportedUse (relation user file : String) (hit : Hit) : Inquiry (Option ReportedUse) := do
  match ← textDetail hit user, ← textDetail hit file with
  | some user, some file => return some ⟨user, file, relation⟩
  | _, _ => return none

/-- The uses that hits report. -/
def reportedUses (relation user file : String) (hits : List Hit) : Inquiry (List ReportedUse) := do
  return (← hits.mapM (reportedUse relation user file)).reduceOption

/-- The uses that are reported; none if either search cannot be made. -/
def reportedFor (knowledge : KnowledgeSource) (symbol file : String) :
    Inquiry (List ReportedUse) := do
  match ← askFor knowledge ("What functions or classes call " ++ symbol ++ " from " ++ file ++ "?")
      20 with
  | none => return []
  | some callers =>
    let calls ← reportedUses "CALLED_BY" "caller" "caller_file" callers
    match ← askFor knowledge ("What files import " ++ symbol ++ " from " ++ file ++ "?") 20 with
    | none => return []
    | some importers =>
      return calls ++ (← reportedUses "IMPORTED_BY" "importer" "importer_file" importers)

/-- The usages of symbols. -/
def usageTable (w : Workspace) (repo : Path) (symbols : List String) :
    Inquiry (Table String (List Usage)) :=
  symbols.eraseDups.mapM fun symbol => do
    return (symbol, ← located (w.usages repo symbol none))

/-- The file that changes. -/
def changedFile (w : Workspace) (repo : Path) (knowledge : KnowledgeSource) (symbol : String)
    (file : Option String) : Inquiry (Option String) :=
  match file.filter (!·.isEmpty) with
  | some file => pure (some file)
  | none => definitionOf w repo knowledge symbol

/-- The impact of a change, from the uses that are reported. -/
def impactFrom (K : Type) [Arith K] (w : Workspace) (repo : Path) (symbol target : String)
    (reported : List ReportedUse) : Inquiry (ImpactReport K) := do
  let table ← usageTable w repo (symbol :: reported.map (·.user))
  let usagesOf := fun name => table.getD name []
  let direct := (usagesOf symbol).filter (·.file != target)
  return reportImpacts symbol target
    (rankImpacts symbol (allAffected usagesOf target symbol direct reported))

/-- The impact of a change. -/
def impactIn (K : Type) [Arith K] (w : Workspace) (repo : Path) (knowledge : KnowledgeSource)
    (symbol file : String) : Inquiry (ImpactReport K) := do
  let target ← normalTarget w repo file
  let reported ← reportedFor knowledge symbol target
  impactFrom K w repo symbol target reported

/-- The impact of a change, and the searches made. -/
def Workspace.impactOf (K : Type) [Arith K] (w : Workspace) (repo : Path)
    (knowledge : KnowledgeSource) (symbol : String) (file : Option String) :
    Inquiry (ImpactReport K) := do
  match ← changedFile w repo knowledge symbol file with
  | none => throw (.notFound symbol)
  | some told => impactIn K w repo knowledge symbol told

end CodeAtlas
