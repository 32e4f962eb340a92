import CodeAtlas.CommandLine.AnalysisRuns
import CodeAtlas.CommandLine.GraphRuns

/-!
# Runs

* `ProviderCommand.run`, `runShowProvider`, `runSetKnowledge`: settings chosen and shown.
* `Session.run`: what the words of a command line bring about.
-/

namespace CodeAtlas

/-! ## Runs about settings -/

/-- A provider chosen and saved. -/
def ProviderCommand.run (c : ProviderCommand) (s : Surroundings) : Run Unit := do
  let name := Text.trim (Text.lower c.provider)
  match ProviderKind.ofName? name with
  | none =>
    Run.complain ("Unknown provider '" ++ name ++ "'. Choose from: " ++
      Text.joinWith ", " (ProviderKind.all.map (·.name)))
  | some kind =>
    let endpoint := match kind with
      | .ollama => filledOr c.endpoint kind.defaultEndpoint
      | _ => c.endpoint
    if kind != .ollama && c.apiKey.isEmpty then
      Run.complain ("Provider '" ++ name ++ "' needs --api-key.")
    else
      let model := filledOr c.model kind.defaultModel
      Run.saveSettings s ((← Run.settingsFile).saveProvider s.format name model c.apiKey endpoint)
      Run.say ("[green]✓[/green] LLM provider set to [bold]" ++ name ++ "[/bold] (" ++ model ++ ")")

/-! ## Showing the provider -/

/-- The key with all but its start hidden. -/
def maskedKey (key : String) : String :=
  String.ofList (key.toList.take 8 ++ List.replicate (min (key.length - 8) 16) '•')

/-- The setting counts as none. -/
def Setting.isVoid : Setting → Bool
  | .text s => s.isEmpty
  | .whole n => n == 0
  | .real x => x == 0
  | .flag b => !b
  | .moment _ => false
  | .list items => items.isEmpty
  | .group entries => entries.isEmpty

/-- A text among the settings, as it is shown. -/
def shownText (values : Settings) (name otherwise : String) : Run String :=
  match Table.getD values name (.text otherwise) with
  | .text s => return s
  | _ => throw (.broken .settingNotShown)

/-- A setting to be shown, or a note if it counts as absent. -/
def shownOr (values : Settings) (name note : String) : Run String :=
  if (Table.getD values name (.text "")).isVoid then return note else shownText values name ""

/-- The key among the settings, hidden. -/
def shownKey (values : Settings) : Run String :=
  match Table.getD values "api_key" (.text "") with
  | .text s => return if s.isEmpty then "(not set)" else maskedKey s
  | v => if v.isVoid then return "(not set)" else throw (.broken .keyNoText)

/-- The provider on the screen. -/
def runShowProvider (s : Surroundings) : Run Unit := do
  match (← Run.settings s).provider with
  | .group values =>
    let rows := [
      ["Provider", ← shownText values "provider" ProviderKind.ollama.name],
      ["Model", ← shownText values "model" ""],
      ["Endpoint", ← shownOr values "endpoint" "(default)"],
      ["API key", ← shownKey values],
      ["Config", s.settingsPath]]
    Run.present (.table (some "LLM configuration") ["Key", "Value"] rows)
  | _ => throw (.broken .settingsNoGroup)

/-- A knowledge service chosen and saved. -/
def runSetKnowledge (endpoint apiKey : String) (s : Surroundings) : Run Unit := do
  Run.saveSettings s ((← Run.settingsFile).saveKnowledge s.format endpoint apiKey)
  Run.say ("[green]✓[/green] Knowledge source set to " ++ endpoint)

/-! ## Runs

That the command is known is seen before the repository is, and the words after the command are read
last. -/

/-- The command carried out. -/
def Command.run (c : Command) (s : Surroundings) (repo : Path) : Run Unit :=
  match c with
  | .graph c => c.run s repo
  | .stats root top => runStats root top s repo
  | .cycles root => runCycles root s repo
  | .write c => c.run s repo
  | .impact c => c.run s repo
  | .architecture c => c.run s repo
  | .setProvider c => c.run s
  | .showProvider => runShowProvider s
  | .setKnowledge endpoint apiKey => runSetKnowledge endpoint apiKey s

/-- The repository of a run. -/
def repositoryAt (text : String) : Run Path := do
  let w ← Run.workspace
  let path := Path.ofText text
  match w.probe path with
  | .ok (some (.folder _)) =>
    match w.resolve path with
    | .ok repo => return repo
    | .error fault => throw (.broken (.file fault))
  | .ok _ =>
    throw (.badValue ("Repository path '" ++ path.text ++ "' is not a directory.") "--repo")
  | .error fault => throw (.broken (.file fault))

/-- The version on the screen. -/
def versionLine : String := "CodeIntel CLI v0.3.0"

/-- The command line carried out. -/
def Invocation.run (i : Invocation) (s : Surroundings) : Run Unit :=
  match i with
  | .version => Run.present (.echo versionLine)
  | .help => return
  | .misuse => throw .misuse
  | .command repo name words => do
    let repo ← repositoryAt repo
    match readCommand name words with
    | .command c => c.run s repo
    | .help => return
    | .misuse => throw .misuse

/-- What is shown, and how a run ends. -/
structure RunReport where
  shown : List ScreenItem
  ending : RunEnd

/-- What the words of a command line bring about. -/
def Session.run (session : Session) (s : Surroundings) (words : List String) :
    RunReport × Session :=
  let (outcome, state) := ((readInvocation words).run s).run.run ⟨session, []⟩
  let ending := match outcome with
    | .ok () => .exit 0
    | .error ending => ending
  (⟨state.shown, ending⟩, state.session)

end CodeAtlas
