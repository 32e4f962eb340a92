import CodeAtlas.Settings.File

/-!
# The lines of a settings text

Before its lines are read one by one, a text is passed through once. Comments become blanks, lines
inside brackets are joined, a line end right after three opening quotes is dropped, and keys and
quotes are checked: a key is a name, or several with points between them, and is followed by an
equals sign on its line; a text in quotes ends on its line unless three quotes open it.
-/

namespace CodeAtlas

/-- Where in a key the pass is. -/
inductive KeyPart where
  /-- No key is being read. -/
  | outside
  /-- The pass is inside a name. -/
  | name
  /-- The pass is behind a name. -/
  | behind
deriving DecidableEq

/-- The state of a pass over a text. -/
structure Scan where
  /-- The characters passed, the last one first. -/
  passed : List Char
  key : KeyPart
  dotted : Bool
  /-- The quote that closes the text the pass is inside of. -/
  quote : Option Char
  /-- Three quotes have been passed that open a text over several lines. -/
  long : Bool
  header : Bool
  depth : Int
  /-- Nothing but blanks has been passed on the line. -/
  fresh : Bool
  comment : Bool

namespace Scan

/-- The pass at the start. -/
def start : Scan where
  passed := []
  key := .outside
  dotted := false
  quote := none
  long := false
  header := false
  depth := 0
  fresh := true
  comment := false

/-- One character passed. -/
def push (s : Scan) (c : Char) : Scan := { s with passed := c :: s.passed }

/-- The character is a quote. -/
def isQuote (c : Char) : Bool := c == '"' || c == '\''

/-- An odd number of backslashes opens the characters. -/
def opensEscaped (cs : List Char) : Bool := (cs.takeWhile (· == '\\')).length % 2 == 1

/-! ## Keys -/

/-- The key goes on with a name if one follows. -/
def resume (s : Scan) (next? : Option Char) : Except SettingsFault Scan :=
  match next? with
  | none => .error .incomplete
  | some c => .ok (if Text.isBlank c || c == '.' then s else { s with key := .name })

/-- The end of the key, which only an equals sign makes. -/
def endKey (s : Scan) (c : Char) : Except SettingsFault Scan :=
  if c == '=' then .ok { s with key := .outside, dotted := false } else .error .malformed

/-- The pass inside a name. -/
def inName (s : Scan) (c : Char) : Except SettingsFault Scan :=
  if Text.isBlank c then .ok { s with key := .behind }
  else if c == '.' then .ok { s with dotted := true }
  else if Text.isWord c || c == '-' then .ok s
  else if isQuote c && s.dotted && s.passed.head? == some '.' then .ok { s with quote := some c }
  else s.endKey c

/-- The pass behind a name. -/
def behindName (s : Scan) (c : Char) (next? : Option Char) : Except SettingsFault Scan :=
  if Text.isBlank c then (if s.dotted then s.resume next? else .ok s)
  else if c == '.' then { s with dotted := true }.resume next?
  else s.endKey c

/-- The pass inside a key. -/
def inKey (s : Scan) (c : Char) (next? : Option Char) : Except SettingsFault Scan :=
  if c == '\n' then .error .malformed
  else match s.quote with
    | some q =>
      .ok (if c == q && !opensEscaped s.passed then { s with key := .behind, quote := none } else s)
    | none => if s.key = .name then s.inName c else s.behindName c next?

/-! ## Quotes, brackets and lines -/

/-- The pass over the quote `q`: three in a row open or close a text over lines, and a double one
behind an odd number of backslashes stands for itself, unless it is the second of two. -/
def atQuote (s : Scan) (q : Char) (behind : List Char) : Scan :=
  let run := ((behind.take 2).takeWhile (· == q)).length
  if s.quote.any (· != q) then s
  else if q == '"' && run != 1 && opensEscaped (behind.drop run) then s
  else if run = 2 then { s with long := !s.long, quote := if s.long then none else some q }
  else { s with quote := if s.quote.isSome then none else some q }

/-- The pass over an opening bracket, which opens a header at the start of a line. -/
def atOpening (s : Scan) (next? : Option Char) : Except SettingsFault Scan :=
  if s.quote.isSome || s.header then .ok s
  else if !s.fresh then .ok { s with depth := s.depth + 1 }
  else if next? == some '[' then .error .malformed
  else .ok { s with header := true }

/-- The pass over a closing bracket. -/
def atClosing (s : Scan) : Scan :=
  if s.quote.isSome then s
  else if s.header then { s with header := false }
  else { s with depth := s.depth - 1 }

/-- The pass over a line end. -/
def atLineEnd (s : Scan) : Except SettingsFault Scan :=
  let s := { s with comment := false }
  if s.long then
    match s.passed with
    | a :: b :: rest =>
      if isQuote a && b == a then
        let rest := if rest.head? == some a then ' ' :: rest.drop 1 else rest
        .ok { s with passed := a :: a :: b :: rest }
      else .ok (s.push '\n')
    | _ => .ok (s.push '\n')
  else if s.quote.isSome then .error .malformed
  else if s.depth ≠ 0 then .ok (s.push ' ')
  else .ok { s.push '\n' with fresh := true }

/-- The start of a line's content: a key, unless it opens a header. -/
def atContent (s : Scan) (c : Char) : Except SettingsFault Scan :=
  if !s.fresh || c == ' ' || c == '\t' then .ok s
  else if s.header then .ok { s with fresh := false }
  else if c == '=' then .error .malformed
  else .ok { s with fresh := false, key := .name }

/-- The pass over a character of a line; before the first stand the last, as in a ring. -/
def inLine (s : Scan) (text : List Char) (c : Char) (next? : Option Char) :
    Except SettingsFault Scan := do
  if c == '#' && s.quote.isNone && !s.header then return { s.push ' ' with comment := true }
  let marked ←
    if isQuote c then pure (s.atQuote c (if s.passed.isEmpty then text.reverse else s.passed))
    else if c == '[' then s.atOpening next?
    else if c == ']' then pure s.atClosing
    else pure s
  return (← marked.atContent c).push c

/-- The pass over a character. -/
def step (s : Scan) (text : List Char) (c : Char) (next? : Option Char) :
    Except SettingsFault Scan :=
  if s.key ≠ .outside then (s.inKey c next?).map (·.push c)
  else if c == '\n' then s.atLineEnd
  else if s.comment then .ok (s.push ' ')
  else s.inLine text c next?

/-- The pass over all characters. -/
def run (text : List Char) : Scan → List Char → Except SettingsFault Scan
  | s, [] => .ok s
  | s, c :: rest => do run text (← s.step text c rest.head?) rest

end Scan

/-- The lines of a text, without comments. -/
def settingsLines (text : List Char) : Except SettingsFault (List (List Char)) := do
  let s ← Scan.start.run text text
  if s.key ≠ .outside || s.quote.isSome then throw .malformed
  return Text.pieces '\n' s.passed.reverse

end CodeAtlas
