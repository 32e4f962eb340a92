import CodeAtlas.CommandLine.Run
import CodeAtlas.Files.Description
import CodeAtlas.Settings.Writer

/-!
# The command line

Reads the description of a session as one line of JSON and carries out one command in it. A session
is described by an object with the `files` of a workspace under their paths, its `dirs` and `links`,
and the text of the settings file as `config`.
-/

namespace CodeAtlas

/-- A text among the settings. -/
def sectionText (values : Settings) (name otherwise : String) : String :=
  match Table.get? values name with
  | some (.text s) => s
  | _ => otherwise

/-- The provider that the settings choose. -/
def Settings.chosen (s : Settings) : ProviderSettings :=
  match s.provider with
  | .group values =>
    let base := ProviderSettings.initial
    ⟨sectionText values "provider" base.provider, sectionText values "model" base.model,
      sectionText values "api_key" base.apiKey, sectionText values "endpoint" base.endpoint⟩
  | _ => .initial

/-- The folder of a described session. -/
def describedRoot : List String := ["workspace"]

/-- A session that is described. -/
def Session.described (j : Json) : Session :=
  let members := fun name => ((j.get? name).bind Json.members?).getD []
  let tree := Entry.folder []
  let tree := tree.putFolders describedRoot [""]
  let tree := tree.putFiles describedRoot (members "files")
  let tree := tree.putFolders describedRoot ((describedItems j "dirs").filterMap Json.str?)
  let tree := tree.putLinks describedRoot (members "links")
  { workspace := { tree := tree, current := describedRoot, homes := ownHome ⟨"/", ["home"]⟩ }
    settings := match (j.get? "config").bind Json.str? with
      | some text => .text text
      | none => .absent
    exchange := ⟨[], []⟩ }

/-- What the runs of a session are given when no service can be reached. -/
def Surroundings.described (session : Session) (now : String) : Surroundings where
  knowledge := fun _ => .ok []
  provider := match session.settings.load .plain with
    | .ok s => .ofSettings s.chosen
    | .error _ => .ofSettings .initial
  format := .plain
  settingsPath := "config.toml"
  now := now

/-- The item in plain text. -/
def ScreenItem.plain : ScreenItem → String
  | .print text => text
  | .table title columns rows =>
    Text.joinWith "\n" (title.toList ++ (columns :: rows).map (Text.joinWith "\t"))
  | .panel text title _ => title ++ "\n" ++ text
  | .echo text => text

/-- The exit code of an end. -/
def RunEnd.code : RunEnd → Nat
  | .exit code => code
  | .misuse => 2
  | .badValue _ _ => 2
  | .broken _ => 1

/-- What is said at an end. -/
def RunEnd.note? : RunEnd → Option String
  | .exit _ => none
  | .misuse => some "Usage: [--repo PATH] COMMAND [ARGUMENTS]"
  | .badValue message option => some ("Invalid value for " ++ option ++ ": " ++ message)
  | .broken _ => some "The run broke off."

end CodeAtlas

open CodeAtlas

/-- Runs the words of the command line on a described session. -/
def main (words : List String) : IO UInt32 := do
  let line ← (← IO.getStdin).getLine
  let session := Session.described ((Json.parse? line).getD .null)
  let (report, _) := session.run (Surroundings.described session "") words
  for item in report.shown do
    IO.println item.plain
  if let some note := report.ending.note? then
    IO.eprintln note
  return UInt32.ofNat report.ending.code
