import CodeAtlas.Settings.Value

/-!
# Reading settings

A line names a section in brackets or gives a value to a key. Names of sections and keys may be
several with points between them, each leading into the section before it. A section is named once,
unless it was only led through before, and so is a key. A text that three quotes open goes on over
the lines to three quotes at the end of one.
-/

namespace CodeAtlas

namespace SettingsLine

/-! ## Cutting lines -/

/-- Pieces outside and inside of single quotes, those at double quotes taken in while a single one
is open. -/
def singlePieces : List (List Char) → List (List Char) → List (List Char)
  | singles, [] => singles
  | singles, piece :: rest =>
    if singles.length % 2 = 1 then singles ++ Text.pieces '\'' piece ++ rest
    else
      singlePieces
        (singles.dropLast ++ Text.pieces '\'' (singles.getLastD [] ++ '"' :: piece)) rest

/-- The pieces outside and inside of quotes, single ones looked for before the first double one and
once more behind them. -/
def quotePieces (line : List Char) : List (List Char) :=
  match Text.pieces '"' line with
  | [] => []
  | first :: rest =>
    let singles := Text.pieces '\'' first
    if singles.length = 1 then singles ++ rest else singlePieces singles rest

/-- The place of the first mark outside of quotes; `quoted` says the first piece is inside. -/
def markPlace (mark : Char) (quoted : Bool) : List (List Char) → Nat
  | [] => 1
  | p :: ps =>
    if !quoted && p.contains mark then 1 else p.count mark + markPlace mark (!quoted) ps

/-- Pieces with marks between them. -/
def joinPieces (mark : Char) (ps : List (List Char)) : List Char := [mark].intercalate ps

/-- The characters without blanks around them. -/
def strip (cs : List Char) : List Char := Text.trimBy Text.isBlank cs

/-! ## Headers -/

/-- The character may stand in a bare name. -/
def isBare (c : Char) : Bool := c.isAlphanum || c == '_' || c == '-'

/-- The names between points; one in quotes, perhaps begun by `start`, may hold points. -/
def headerParts? (start : Option (List Char)) : List (List Char) → Option (List (List Char))
  | [] => if start.isSome then none else some []
  | part :: parts =>
    let name := match start with
      | some front => front ++ '.' :: part
      | none => strip part
    let whole := strip name
    if name.head?.any Scan.isQuote then
      if whole.head? == whole.getLast? && whole.length != 1 then
        (headerParts? none parts).map (SettingValue.inner whole :: ·)
      else headerParts? (some name) parts
    else if !name.isEmpty && name.all isBare then (headerParts? none parts).map (name :: ·)
    else none

/-- The names of a header. -/
def headerNames? (line : List Char) : Option (List String) := do
  let place := markPlace ']' false (quotePieces line)
  let pieces := Text.pieces ']' line
  let rest := pieces.drop place
  if rest.isEmpty || !(strip (joinPieces ']' rest)).isEmpty then none
  let parts ← headerParts? none (Text.pieces '.' (joinPieces ']' (pieces.take place)))
  return parts.map String.ofList

end SettingsLine

/-! ## Entries -/

/-- A line with a key and a value. -/
structure SettingsEntry where
  sections : List String
  name : String
  value : List Char
  sound : Bool

namespace SettingsEntry

open SettingsLine

/-- The characters may be a value: blank, quoted, bracketed, a word or a number. -/
def isValue (cs : List Char) : Bool :=
  match cs with
  | [] => true
  | c :: _ =>
    c == ' ' || c == '\t' || c == '\'' || c == '"' || c == '[' || c == '\x7b' ||
      strip cs == "true".toList || strip cs == "false".toList ||
      (readFloat? (String.ofList cs)).isSome

/-- A line cut at its equals signs: the longest value that may be one, and its key. -/
def cut (sound : Bool) (key : List (List Char)) :
    List (List Char) → Except SettingsFault (List Char × List Char × Bool)
  | [] => .error .malformed
  | piece :: rest =>
    let value := joinPieces '=' (piece :: rest)
    if isValue value then .ok (strip (joinPieces '=' key), strip value, sound)
    else cut (sound && SettingValue.isSound (joinPieces '=' rest)) (key ++ [piece]) rest

/-- A number without underscores. -/
def plainNumber (cs : List Char) : List Char :=
  if cs.head?.any Char.isDigit then cs.filter (· != '_') else cs

/-- The key and the value of a line. -/
def split (line : List Char) : Except SettingsFault (List Char × List Char × Bool) :=
  let pieces := Text.pieces '=' line
  let place := min (markPlace '=' false (quotePieces line)) (pieces.length - 1)
  let value := joinPieces '=' (pieces.drop place)
  let sound := SettingValue.isSound value
  let plain := plainNumber value
  if isValue plain then .ok (strip (joinPieces '=' (pieces.take place)), strip plain, sound)
  else cut sound (pieces.take place) (pieces.drop place)

/-- The names of a key, divided by points outside of quotes. -/
def levels (quoted : Bool) : List (List Char) → List (List Char)
  | [] => []
  | p :: ps => (if quoted then [p] else (Text.pieces '.' p).map strip) ++ levels (!quoted) ps

/-- The sections and the name of a key. -/
def names (key : List Char) : Except SettingsFault (List String × String) :=
  if key.contains '.' then
    let parts :=
      if key.any Scan.isQuote then levels false (quotePieces key) else Text.pieces '.' key
    match parts.reverse.dropWhile List.isEmpty with
    | [] => .error .incomplete
    | last :: before =>
      let sections := before.reverse.filter (!·.isEmpty)
      .ok (sections.map String.ofList, String.ofList (strip last))
  else match key.head? with
    | none => .error .incomplete
    | some c => do
      if Scan.isQuote c && key.getLast? == some c then
        return ([], String.ofList (← SettingValue.unescape (SettingValue.inner key)))
      else return ([], String.ofList key)

/-- A value that three quotes open and do not close on its line. -/
def isOpen (value : List Char) : Bool :=
  match value with
  | a :: b :: c :: _ =>
    Scan.isQuote a && b == a && c == a &&
      !(5 < value.length && value.reverse.take 3 == [a, a, a])
  | _ => false

end SettingsEntry

/-! ## Sections -/

namespace Setting

/-- The setting that names lead to. -/
def reach : Setting → List String → Except SettingsFault Setting
  | v, [] => .ok v
  | .group entries, name :: names => reach (Table.getD entries name (.group [])) names
  | _, _ :: _ => .error .noSection

/-- The setting with a section changed or made. -/
def changeAt (change : Settings → Settings) : List String → Setting → Setting
  | [], .group entries => .group (change entries)
  | name :: names, .group entries =>
    .group (Table.put entries name (changeAt change names (Table.getD entries name (.group []))))
  | _, v => v

/-- The sections only led through, after one more; one named again has to be among them. -/
def impliedAfter (implied : List String) :
    List String → Setting → Except SettingsFault (List String)
  | [], _ => .ok implied
  | name :: names, v =>
    if name.isEmpty then .error .malformed
    else match v with
      | .group entries =>
        match Table.get? entries name with
        | some v =>
          if !names.isEmpty then impliedAfter implied names v
          else if implied.contains name then .ok (implied.erase name)
          else .error .malformed
        | none =>
          impliedAfter (if names.isEmpty then implied else implied ++ [name]) names (.group [])
      | .text s => .error (if s.isEmpty then .incomplete else .noSection)
      | _ => .error .noSection

end Setting

/-! ## All lines -/

/-- A text over several lines. -/
structure OpenText where
  key : String
  text : List Char
  /-- The last line goes on without a line end. -/
  joined : Bool

/-- What is read so far. -/
structure SettingsState where
  root : Setting
  current : List String
  /-- The names of sections that were only led through. -/
  implied : List String
  open? : Option OpenText

namespace SettingsState

open SettingsLine

/-- Nothing read yet. -/
def start : SettingsState := ⟨.group [], [], [], none⟩

/-- A setting put into a section. -/
def put (s : SettingsState) (sections : List String) (name : String) (v : Setting) :
    SettingsState :=
  { s with root := s.root.changeAt (fun t => Table.put t name v) (s.current ++ sections) }

/-- A text carried on; behind a backslash the line end is left out. -/
def carry (key : String) (text : List Char) : OpenText :=
  if SettingValue.closesEscaped text then ⟨key, text.dropLast, true⟩
  else ⟨key, text ++ ['\n'], false⟩

/-- One more line of a text. -/
def goOn (s : SettingsState) (t : OpenText) (line : List Char) :
    Except SettingsFault SettingsState := do
  let line := if t.joined || !t.text.contains '\n' then strip line else line
  let text := t.text ++ line
  if line.isEmpty && t.joined then return s
  else if 2 < line.length && (line.reverse.take 3).all (some · == text.head?) then
    return { s.put [] t.key (← Setting.read true text) with open? := none }
  else return { s with open? := some (carry t.key text) }

/-- A section opened. -/
def header (s : SettingsState) (names : List String) : Except SettingsFault SettingsState := do
  let implied ← Setting.impliedAfter s.implied names s.root
  return { s with root := s.root.changeAt id names, current := names, implied := implied }

/-- A setting read. -/
def entry (s : SettingsState) (e : SettingsEntry) : Except SettingsFault SettingsState := do
  let place ← s.root.reach (s.current ++ e.sections)
  let value ← if SettingsEntry.isOpen e.value then pure none
    else (Setting.read e.sound e.value).map some
  match place with
  | .group entries =>
    if Table.has entries e.name then throw .malformed
    match value with
    | some v => return s.put e.sections e.name v
    | none =>
      if e.name.isEmpty then throw .nameless
      return { s with
        root := s.root.changeAt id (s.current ++ e.sections)
        open? := some (carry e.name e.value) }
  | _ => throw .malformed

/-- A line read. -/
def line (s : SettingsState) (cs : List Char) : Except SettingsFault SettingsState :=
  match s.open? with
  | some t => s.goOn t cs
  | none =>
    match strip cs with
    | [] => .ok s
    | '[' :: rest =>
      match headerNames? rest with
      | some names => s.header names
      | none => .error .malformed
    | '\x7b' :: _ => .error .malformed
    | cs => if cs.contains '=' then do
        let (key, value, sound) ← SettingsEntry.split cs
        let (sections, name) ← SettingsEntry.names key
        s.entry ⟨sections, name, value, sound⟩
      else .ok s

end SettingsState

/-- The settings of a text. -/
def readSettings (text : String) : Except SettingsFault Settings := do
  let state ← (← settingsLines text.toList).foldlM SettingsState.line .start
  match state.root with
  | .group entries => return entries
  | _ => return []

end CodeAtlas
