import CodeAtlas.CommandLine.Command
import CodeAtlas.CommandLine.Screen
import CodeAtlas.Impact.Ripple

/-!
# Runs about changes and architecture

* `ImpactCommand.run`: what a change affects, as a table, as rings or as JSON.
* `ArchitectureCommand.run`: the health of an architecture and what to do about it.
-/

namespace CodeAtlas

/-- The text in a color. -/
def colored (color text : String) : String := "[" ++ color ++ "]" ++ text ++ "[/" ++ color ++ "]"

/-- The text in capitals. -/
def capitals (s : String) : String := String.ofList (s.toList.map Text.capital)

/-- The color of a level. -/
def levelColor (level : String) : String :=
  match level with
  | "CRITICAL" => "bold red"
  | "HIGH" => "red"
  | "MEDIUM" => "yellow"
  | "LOW" => "green"
  | _ => "white"

/-- The color of a severity. -/
def severityColor (severity : String) : String :=
  match severity with
  | "critical" => "bold red"
  | "error" => "red"
  | "warning" => "yellow"
  | "info" => "cyan"
  | _ => "white"

/-! ## Impact -/

/-- What is said above a ripple. -/
def Ripple.headline (r : Ripple Computed) : String :=
  "\n[bold cyan]🌊 Impact ripple of `" ++ r.symbol ++ "`[/bold cyan] (" ++ r.file ++ ") · " ++
    natText r.total ++ " affected · " ++
    colored "bold red" (natText (r.countOf "critical") ++ " critical") ++ " · " ++
    colored "red" (natText (r.countOf "high") ++ " high") ++ " · " ++
    colored "yellow" (natText (r.countOf "medium") ++ " medium") ++ " · " ++
    colored "green" (natText (r.countOf "low") ++ " low") ++ "\n"

/-- The row of a ring. -/
def RippleLayer.row (l : RippleLayer Computed) : List String :=
  [intText l.depth, colored (levelColor (capitals l.severity)) l.severity, l.total.fixedText 2,
    Text.joinWith ", " (l.nodes.map (·.file)).eraseDups]

/-- The ripple on the screen. -/
def Ripple.present (r : Ripple Computed) (asJson : Bool) : Run Unit := do
  if asJson then Run.present (.echo r.record.indented)
  else
    Run.say r.headline
    if r.layers.isEmpty then Run.say "[green]✓[/green] No dependents above the threshold."
    else
      Run.present (.table none ["Ring", "Severity", "Total", "Files"]
        (r.layers.map RippleLayer.row))

/-- The row of an impact. -/
def Impact.row (i : Impact Computed) : List String :=
  [colored (levelColor i.level) i.level, i.score.fixedText 2, intText i.depth, i.file, i.reason]

/-- What is said above a report. -/
def ImpactReport.headline (r : ImpactReport Computed) (symbol : String) : String :=
  "\n[bold cyan]💥 Impact of changing `" ++ symbol ++ "`[/bold cyan] (" ++ r.file ++
    ") · total " ++ r.total.fixedText 2 ++ " · depth " ++ intText r.depth ++ "\n"

/-- The report that is asked for. -/
def ImpactCommand.report (c : ImpactCommand) (s : Surroundings) (repo : Path) :
    Run (ImpactReport Computed) := do
  match ((← Run.workspace).impactOf Computed repo s.knowledge c.symbol c.file).run.run [] with
  | (.ok report, _) => return report
  | (.error e@(.notFound _), _) => Run.complain e.message
  | (.error e, _) => throw (.broken (.impact e))

/-- The impact of a change on the screen. -/
def ImpactCommand.run (c : ImpactCommand) (s : Surroundings) (repo : Path) : Run Unit := do
  let report ← c.report s repo
  if c.ripple then
    (rippleOf ⟨c.maxDepth, c.includeTests, .real c.minScore⟩ report).present c.asJson
  else if c.asJson then Run.present (.echo (report.record s.now).indented)
  else
    Run.say (report.headline c.symbol)
    if report.impacts.isEmpty then Run.say "[green]✓[/green] No dependents found."
    else
      Run.present (.table none ["Level", "Score", "Depth", "File", "Reason"]
        (report.impacts.map Impact.row))

/-! ## Architecture -/

/-- The kinds of issues that can be found. -/
def issueKinds : List String := detectors.map (·.1)

/-- The issues that are asked for. -/
def ArchitectureCommand.options (c : ArchitectureCommand) : Run AdviceOptions := do
  Run.checkChoices c.issues issueKinds "--issue"
  let usual : AdviceOptions := {}
  return {
    targetPath := c.path
    issueKinds := if c.issues.isEmpty then usual.issueKinds else c.issues
    minConfidence := .real c.minConfidence
    enhanced := c.enhance }

/-- The advice on the repository. -/
def adviceReport (s : Surroundings) (repo : Path) (options : AdviceOptions) :
    Run AdviceReport := do
  let session := (← get).session
  let advice := session.workspace.advice repo s.knowledge options
    (if options.enhanced then some s.provider.service else none) session.exchange
  modify fun state => { state with session := { state.session with exchange := advice.service } }
  match advice.report with
  | .ok report => return report
  | .error e@(.rootNotFound _) => Run.complain e.message
  | .error e => throw (.broken (.build e))

/-- The color of a health. -/
def healthColor (health : Int) : String :=
  if 80 ≤ health then "green" else if 60 ≤ health then "yellow" else "red"

/-- The text filled up with blanks. -/
def padded (width : Nat) (s : String) : String :=
  String.ofList (s.toList ++ List.replicate (width - s.length) ' ')

/-- The line of a suggestion. -/
def Suggestion.line (s : Suggestion) : String :=
  colored (severityColor s.severity) (padded 8 (capitals s.severity)) ++ " [bold]" ++ s.kind ++
    "[/bold] (" ++ fixedText 2 s.confidence ++ ") " ++ s.description

/-- The line of the counts. -/
def IssueCounts.line (c : IssueCounts) : String :=
  "\n" ++ natText c.total ++ " issues · " ++ natText c.critical ++ " high-severity · " ++
    natText c.warning ++ " warnings · " ++ natText c.info ++ " info"

/-- The advice on the screen. -/
def ArchitectureCommand.run (c : ArchitectureCommand) (s : Surroundings) (repo : Path) :
    Run Unit := do
  let report ← adviceReport s repo (← c.options)
  let color := healthColor report.health
  Run.present (.panel
    (colored color (intText report.health ++ "/100") ++ "\n" ++ report.summary)
    "🏛  Architecture health" color)
  for suggestion in report.suggestions do
    Run.say suggestion.line
    if c.enhance then Run.say ("[dim]" ++ suggestion.refactoring ++ "[/dim]\n")
  Run.say report.counts.line

end CodeAtlas
