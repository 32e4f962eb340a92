import CodeAtlas.Advice.Report
import CodeAtlas.Impact.Analysis
import CodeAtlas.Settings.File

/-!
# Screens and sessions

A run shows items on the screen and ends in one of a few ways. Runs of one session share the files,
the settings and the exchange with the text provider.
-/

namespace CodeAtlas

/-- What is shown on the screen. -/
inductive ScreenItem where
  | print (text : String)
  | table (title : Option String) (columns : List String) (rows : List (List String))
  | panel (text title border : String)
  | echo (text : String)

/-- A fault that ends a run. -/
inductive RunFault where
  | build (e : BuildError)
  | impact (e : ImpactError)
  | file (f : FileFault)
  | settings (f : SettingsFault)
  /-- The settings of the provider are no section. -/
  | settingsNoGroup
  /-- A setting that is shown is no text. -/
  | settingNotShown
  /-- The key is no text. -/
  | keyNoText
deriving DecidableEq

/-- How a run ends. -/
inductive RunEnd where
  | exit (code : Nat)
  /-- The words of the command line make no command. -/
  | misuse
  /-- An option has a value that it cannot have. -/
  | badValue (message option : String)
  | broken (fault : RunFault)
deriving DecidableEq

/-- What runs change. -/
structure Session where
  workspace : Workspace
  settings : SettingsFile
  exchange : Exchange

/-- What runs find around them. -/
structure Surroundings where
  knowledge : KnowledgeSource
  provider : TextProvider
  format : SettingsFormat
  settingsPath : String
  now : String

/-- The session, and what was shown. -/
structure RunState where
  session : Session
  shown : List ScreenItem

/-- A run that may end early. -/
abbrev Run (α : Type) : Type := ExceptT RunEnd (StateM RunState) α

namespace Run

/-- An item shown. -/
def present (item : ScreenItem) : Run Unit := modify fun s => { s with shown := s.shown ++ [item] }

/-- A text shown. -/
def say (text : String) : Run Unit := present (.print text)

/-- A complaint that ends the run. -/
def complain {α : Type} (text : String) : Run α := do
  say ("[red]✗[/red] " ++ text)
  throw (.exit 1)

/-- The files of the session. -/
def workspace : Run Workspace := return (← get).session.workspace

/-- The settings of the session. -/
def settingsFile : Run SettingsFile := return (← get).session.settings

/-- A file written. -/
def writeFile (path : Path) (text : String) : Run Unit := do
  match (← workspace).write path text with
  | .ok w => modify fun s => { s with session := { s.session with workspace := w } }
  | .error fault => throw (.broken (.file fault))

/-- The settings as they are read. -/
def settings (s : Surroundings) : Run Settings := do
  match (← settingsFile).load s.format with
  | .ok s => return s
  | .error fault => throw (.broken (.settings fault))

/-- The outcome of a save. -/
def saveSettings (surroundings : Surroundings)
    (saved : SettingsFile × Except SettingsFault Bool) : Run Unit := do
  modify fun s => { s with session := { s.session with settings := saved.1 } }
  match saved.2 with
  | .ok true => return
  | .ok false => complain ("Could not write " ++ surroundings.settingsPath)
  | .error fault => throw (.broken (.settings fault))

/-- All values are among those allowed. -/
def checkChoices (values allowed : List String) (option : String) : Run Unit := do
  let unknown := values.filter (!allowed.contains ·)
  unless unknown.isEmpty do
    throw (.badValue ("Unknown value(s) " ++ Text.joinWith ", " unknown ++ ". Choose from: " ++
      Text.joinWith ", " allowed) option)

end Run

end CodeAtlas
