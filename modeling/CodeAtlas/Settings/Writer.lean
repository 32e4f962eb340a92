import CodeAtlas.Json.Writer
import CodeAtlas.Settings.Reader

/-!
# Writing settings

Values outside sections come first, then the sections with a blank line between them, those inside
other sections after them. Texts are written in double quotes with escapes. Codes of two digits have
no escape of their own: such a text is cut at them and put together again, with a longer code where
the backslashes allow it, and cannot be written at all if nothing else is in it.
-/

namespace CodeAtlas

/-! ## Texts and names -/

namespace SettingValue

/-- Pairs of backslashes as single ones. -/
def singleBackslashes : List Char → List Char
  | [] => []
  | [c] => [c]
  | b :: c :: rest =>
    if b = '\\' ∧ c = '\\' then '\\' :: singleBackslashes rest
    else b :: singleBackslashes (c :: rest)

/-- What joins a piece to a code of two digits: a longer code if a backslash is left to escape it,
else a plain letter. -/
def codeJoint (piece : List Char) : List Char :=
  let backslashes := (piece.reverse.takeWhile (· == '\\')).length
  if backslashes = 0 ∨ min backslashes (piece.length - 1) % 2 = 1 then ['x'] else ['u', '0', '0']

/-- Pieces joined to codes. -/
def joinCodes? : List (List Char) → Option (List Char)
  | [] => none
  | [piece] => some piece
  | [[], _] => none
  | [] :: rest => joinAll rest
  | pieces => joinAll pieces
where
  joinAll : List (List Char) → Option (List Char)
    | [] => none
    | first :: rest =>
      rest.foldlM (fun front piece =>
        if front.isEmpty then none
        else
          let front := singleBackslashes front
          some (front ++ codeJoint front ++ piece)) first

end SettingValue

/-- The text between quotes, if it can be written. -/
def writtenText? (s : String) : Option String := do
  let plain := s.toList.flatMap (Json.Display.escape '"')
  let text ← SettingValue.joinCodes? (SettingValue.codePieces 'x' plain)
  return String.ofList ('"' :: (text ++ ['"']))

/-- The text between quotes. -/
def writtenText (s : String) : Except SettingsFault String :=
  match writtenText? s with
  | some text => .ok text
  | none => .error .unwritable

/-- A name that needs no quotes. A line end behind it does not count. -/
def isBareName (name : String) : Bool :=
  let cs := name.toList
  let cs := if cs.getLast? == some '\n' then cs.dropLast else cs
  !cs.isEmpty && cs.all SettingsLine.isBare

/-- The name as it is written. -/
def writtenName (name : String) : Except SettingsFault String :=
  if isBareName name then .ok name else writtenText name

/-! ## Numbers and values -/

/-- The digits of an exponent without a zero in front. -/
def shortExponent : List Char → List Char
  | [] => []
  | 'e' :: s :: '0' :: rest =>
    if s = '+' ∨ s = '-' then 'e' :: s :: rest else 'e' :: shortExponent (s :: '0' :: rest)
  | c :: rest => c :: shortExponent rest

/-- The whole number as it is written. -/
def writtenWhole (n : Int) : Except SettingsFault String :=
  if Nat.pow 10 Numeral.mostDigits ≤ n.natAbs then .error .longNumber else .ok (intText n)

/-- The setting as it is written. -/
def Setting.written : Setting → Except SettingsFault String
  | .text s => writtenText s
  | .whole n => writtenWhole n
  | .real x => .ok (String.ofList (shortExponent (realText x).toList))
  | .flag b => .ok (if b then "true" else "false")
  | _ => .error .unwritable

/-! ## Sections -/

mutual

/-- How deep sections are nested. -/
def Setting.depth : Setting → Nat
  | .group entries => Setting.innerDepth entries + 1
  | _ => 0

/-- How deep sections inside are nested. -/
def Setting.innerDepth : List (String × Setting) → Nat
  | [] => 0
  | (_, v) :: rest => max v.depth (Setting.innerDepth rest)

end

/-- The lines of a section, and the sections inside by their written names. -/
def Settings.parted (s : Settings) : Except SettingsFault (String × Table String Settings) :=
  s.foldlM (fun (lines, inside) (name, v) => do
    let name ← writtenName name
    match v with
    | .group entries => return (lines, Table.put inside name entries)
    | v => return (lines ++ name ++ " = " ++ (← v.written) ++ "\n", inside)) ("", [])

/-- The texts of sections, and those inside; one of sections only is not written. -/
def writtenSections (sections : Table String Settings) :
    Except SettingsFault (List String × Table String Settings) :=
  sections.foldlM (fun (texts, inside) (name, s) => do
    let (lines, more) ← Settings.parted s
    let texts :=
      if lines.isEmpty && !more.isEmpty then texts else texts ++ ["[" ++ name ++ "]\n" ++ lines]
    return (texts, Table.update inside (more.map fun (sub, t) => (name ++ "." ++ sub, t)))) ([], [])

/-- The texts of sections down to `depth`. -/
def writtenLevels : Nat → Table String Settings → Except SettingsFault (List String)
  | 0, _ => .ok []
  | _ + 1, [] => .ok []
  | depth + 1, sections => do
    let (texts, inside) ← writtenSections sections
    return texts ++ (← writtenLevels depth inside)

/-- The settings as a text. -/
def writeSettings (s : Settings) : Except SettingsFault String := do
  let (lines, sections) ← Settings.parted s
  let texts ← writtenLevels (Setting.innerDepth s) sections
  return Text.joinWith "\n" ((if lines.isEmpty then [] else [lines]) ++ texts)

/-- The format of sections that hold texts, numbers, and yes or no. -/
def SettingsFormat.plain : SettingsFormat := ⟨readSettings, writeSettings⟩

end CodeAtlas
