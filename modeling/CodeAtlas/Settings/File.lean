import CodeAtlas.Advice.Provider

/-!
# Settings and their file

Settings are values under names, some of them gathered in sections. The section `llm` chooses a
text provider and the section `knowledge` a knowledge service; saving one of them replaces it as a
whole and leaves all else as it is.
-/

namespace CodeAtlas

/-- What stands under a name: a value, or a section of further names. -/
inductive Setting where
  | text (s : String)
  | whole (n : Int)
  | real (x : Float)
  | flag (b : Bool)
  /-- A date or a time, as it is written. -/
  | moment (s : String)
  | list (items : List Setting)
  | group (entries : List (String × Setting))

/-- Settings under their names. -/
abbrev Settings : Type := Table String Setting

/-- Why settings cannot be read or written. -/
inductive SettingsFault where
  /-- The text breaks a rule of the format. -/
  | malformed
  /-- The text ends, or is empty, where a character is looked at. -/
  | incomplete
  /-- Names lead through a value that is no section. -/
  | noSection
  /-- An escaped character has a code beyond all bounds. -/
  | hugeCode
  /-- A text over several lines stands under the empty name. -/
  | nameless
  /-- A text or a name cannot be written. -/
  | unwritable
  /-- A whole number has too many digits to be written. -/
  | longNumber
deriving DecidableEq

/-! ## Settings as JSON -/

mutual

/-- A setting as a JSON value. -/
def Setting.json : Setting → Json
  | .text s => .str s
  | .whole n => .int n
  | .real x => .float x
  | .flag b => .bool b
  | .moment s => .str s
  | .list items => .arr (Setting.values items)
  | .group entries => .obj (Setting.members entries)

/-- The items of a list as JSON values. -/
def Setting.values : List Setting → List Json
  | [] => []
  | v :: rest => v.json :: Setting.values rest

/-- The entries of a section as members of an object. -/
def Setting.members : List (String × Setting) → List (String × Json)
  | [] => []
  | (name, v) :: rest => (name, v.json) :: Setting.members rest

end

/-- The settings as an object. -/
def Settings.json (s : Settings) : Json := .obj (Setting.members s)

/-! ## Text providers -/

/-- A setting, unless it is empty. -/
def filledSetting (name value : String) : Settings :=
  if value.isEmpty then [] else [(name, .text value)]

/-- The settings of a provider. -/
def ProviderKind.defaults (kind : ProviderKind) : Settings :=
  [("provider", .text kind.name), ("model", .text kind.defaultModel),
    match kind with
    | .ollama => ("endpoint", .text kind.defaultEndpoint)
    | _ => ("api_key", .text "")]

/-- The section of the provider of a name, the local one if unknown. -/
def defaultProviderSection (name : String) : Settings :=
  ((ProviderKind.ofName? name).getD .ollama).defaults

/-- The section of a chosen provider. -/
def providerSection (provider model apiKey endpoint : String) : Settings :=
  [("provider", .text provider), ("model", .text model)] ++ filledSetting "api_key" apiKey ++
    filledSetting "endpoint" endpoint

/-- The section of a chosen knowledge service. -/
def knowledgeSection (endpoint apiKey : String) : Settings :=
  ("endpoint", .text endpoint) :: filledSetting "api_key" apiKey

namespace Settings

/-- The section of the provider. -/
def provider (s : Settings) : Setting :=
  (Table.get? s "llm").getD (.group ProviderKind.ollama.defaults)

/-- The section of the knowledge service. -/
def knowledge (s : Settings) : Setting := (Table.get? s "knowledge").getD (.group [])

/-- The settings with another provider. -/
def withProvider (s : Settings) (provider model apiKey endpoint : String) : Settings :=
  Table.put s "llm" (.group (providerSection provider model apiKey endpoint))

/-- The settings with another knowledge service. -/
def withKnowledge (s : Settings) (endpoint apiKey : String) : Settings :=
  Table.put s "knowledge" (.group (knowledgeSection endpoint apiKey))

end Settings

/-! ## The settings file

A text that breaks the format counts as no settings. Saving empties the file first, so that it stays
empty if the settings cannot be written. -/

/-- How settings are read from a text, and written as one. -/
structure SettingsFormat where
  read : String → Except SettingsFault Settings
  write : Settings → Except SettingsFault String

/-- The file of the settings. -/
inductive SettingsFile where
  | absent
  | text (s : String)
  /-- A folder stands in its place. -/
  | blocked
deriving DecidableEq

namespace SettingsFile

/-- The text of the file, its line ends made plain. -/
def text? : SettingsFile → Option String
  | .text s => some (String.ofList (Text.unixLines s.toList))
  | _ => none

/-- The settings in the file. -/
def load (f : SettingsFile) (format : SettingsFormat) : Except SettingsFault Settings :=
  match f.text? with
  | none => .ok []
  | some content =>
    match format.read content with
    | .error .malformed => .ok []
    | outcome => outcome

/-- The file with settings written to it, and whether that could be done. -/
def write (f : SettingsFile) (format : SettingsFormat) (s : Settings) :
    SettingsFile × Except SettingsFault Bool :=
  match f with
  | .blocked => (f, .ok false)
  | _ =>
    match format.write s with
    | .ok content => (.text content, .ok true)
    | .error fault => (.text "", .error fault)

/-- The file with changed settings, and whether it could be written. -/
def save (f : SettingsFile) (format : SettingsFormat) (change : Settings → Settings) :
    SettingsFile × Except SettingsFault Bool :=
  match f.load format with
  | .ok s => f.write format (change s)
  | .error fault => (f, .error fault)

/-- The file after a text provider was chosen. -/
def saveProvider (f : SettingsFile) (format : SettingsFormat)
    (provider model apiKey endpoint : String) : SettingsFile × Except SettingsFault Bool :=
  f.save format (Settings.withProvider · provider model apiKey endpoint)

/-- The file after a knowledge service was chosen. -/
def saveKnowledge (f : SettingsFile) (format : SettingsFormat) (endpoint apiKey : String) :
    SettingsFile × Except SettingsFault Bool :=
  f.save format (Settings.withKnowledge · endpoint apiKey)

end SettingsFile

end CodeAtlas
