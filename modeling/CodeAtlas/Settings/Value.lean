import CodeAtlas.Settings.Scan

/-!
# Values of settings

A value is `true` or `false`, a text between quotes, or a number. In a text between double quotes
a backslash escapes: first the codes of characters are resolved, then all other escapes, so that a
backslash given by its code escapes again. If quotes follow the opening one directly, two characters
are taken off both ends of the text before its outer quotes are.
-/

namespace CodeAtlas

namespace SettingValue

/-! ## Escapes -/

/-- The character of a letter behind a backslash. -/
def escaped? : Char → Option Char
  | '0' => some '\x00'
  | 'b' => some '\x08'
  | 'f' => some '\x0c'
  | 'n' => some '\n'
  | 'r' => some '\r'
  | 't' => some '\t'
  | '"' => some '"'
  | _ => none

/-- The letter marks a code. -/
def isCodeMark (c : Char) : Bool := c == 'u' || c == 'U'

/-- The characters that a backslash and a letter stand for; a mark of a code stays. -/
def escapedChars (c : Char) : Except SettingsFault (List Char) :=
  if c == '\\' then .ok ['\\']
  else if isCodeMark c then .ok ['\\', c]
  else match escaped? c with
    | some d => .ok [d]
    | none => .error .malformed

/-- The text without escapes. -/
def unescape : List Char → Except SettingsFault (List Char)
  | '\\' :: c :: rest => do return (← escapedChars c) ++ (← unescape rest)
  | c :: rest => do return c :: (← unescape rest)
  | [] => .ok []

/-- A piece behind a backslash cannot be escaped; `escaped` says that the first backslash is escaped
itself. -/
def anyReserved (escaped : Bool) : List (List Char) → Bool
  | [] => false
  | [] :: rest => anyReserved (!escaped) rest
  | (c :: _) :: rest =>
    (!escaped && (escaped? c).isNone && !isCodeMark c) || anyReserved false rest

/-- The pieces with a character put in front of the first. -/
def inFront (c : Char) : List (List Char) → List (List Char)
  | [] => [[c]]
  | p :: ps => (c :: p) :: ps

/-- The pieces between backslashes with the given letter. -/
def codePieces (mark : Char) : List Char → List (List Char)
  | [] => [[]]
  | [c] => [[c]]
  | b :: c :: rest =>
    if b = '\\' ∧ c = mark then [] :: codePieces mark rest
    else inFront b (codePieces mark (c :: rest))

/-- The character whose code of at most `width` digits opens the piece. -/
def codeChar (width : Nat) (piece : List Char) : Except SettingsFault Char :=
  match (piece.take width).mapM Json.Reader.hexDigit? with
  | none => .error .malformed
  | some [] => .error .incomplete
  | some [13] => .error .incomplete
  | some ds =>
    let code := ds.foldl (fun n d => 16 * n + d) 0
    if ds.head? == some 13 && (ds.drop 1).head?.any (7 < ·) then .error .malformed
    else if Nat.pow 2 31 ≤ code then .error .hugeCode
    else if code.isValidChar then .ok (Char.ofNat code)
    else .error .malformed

/-- An odd number of backslashes ends the characters. -/
def closesEscaped (cs : List Char) : Bool := Scan.opensEscaped cs.reverse

/-- The pieces behind marks of codes, resolved; `escaped` says that the first mark is escaped
itself. -/
def decodePieces (mark : Char) (width : Nat) :
    Bool → List (List Char) → Except SettingsFault (List Char)
  | _, [] => .ok []
  | true, p :: ps => do
    return '\\' :: mark :: p ++ (← decodePieces mark width (closesEscaped p) ps)
  | false, p :: ps => do
    let c ← codeChar width p
    return c :: p.drop width ++ (← decodePieces mark width false ps)

/-- The codes of a mark resolved. -/
def decode (mark : Char) (width : Nat) (cs : List Char) : Except SettingsFault (List Char) :=
  match codePieces mark cs with
  | [] => .ok []
  | p :: ps => do return p ++ (← decodePieces mark width (closesEscaped p) ps)

/-- All escapes resolved. -/
def resolve (cs : List Char) : Except SettingsFault (List Char) := do
  if anyReserved false ((Text.pieces '\\' cs).drop 1) then throw .malformed
  unescape (← decode 'U' 8 (← decode 'u' 4 cs))

/-! ## Texts between quotes -/

/-- Nothing follows the end of a text cut at its quotes; `count` were passed in a row. -/
def closesOnce (triple closed : Bool) (count : Nat) : List (List Char) → Bool
  | [] => true
  | [] :: rest =>
    if triple then closesOnce triple closed (count + 1) rest else closesOnce triple true count rest
  | p :: rest =>
    if closesEscaped p then closesOnce triple closed count rest
    else if closed then false
    else if !triple || 1 < count then closesOnce triple true count rest
    else closesOnce triple closed 0 rest

/-- The characters but the ends. -/
def inner (cs : List Char) : List Char := (cs.drop 1).dropLast

/-- The characters between their quotes. -/
def unwrapped (q : Char) (cs : List Char) : List Char :=
  match cs.drop 1 with
  | [] => inner cs
  | c :: rest => inner (if c == q && rest.head?.all (· == q) then inner (inner cs) else cs)

/-- The text between quotes. -/
def quotedText (q : Char) (cs : List Char) : Except SettingsFault (List Char) := do
  let whole := match Text.pieces q (cs.drop 1) with
    | [] :: [] :: rest => closesOnce true false 0 rest
    | pieces => closesOnce false false 0 pieces
  unless whole do throw .malformed
  return unwrapped q (← if q == '"' then resolve cs else pure cs)

/-! ## Numbers -/

/-- No zero leads a number but before a point or the letter of a base. -/
def soundStart : List Char → Bool
  | '0' :: c :: _ => c == '.' || c == 'o' || c == 'b' || c == 'x'
  | '+' :: '0' :: c :: _ => c == '.'
  | '-' :: '0' :: c :: _ => c == '.'
  | _ => true

/-- The zeros and underscores of a number are where they may be. -/
def isSound (cs : List Char) : Bool :=
  let n := Text.trimBy Text.isBlank cs
  !n.isEmpty && n.head? != some '_' && n.getLast? != some '_' && !Text.partIn ['_', '.'] n &&
    !Text.partIn ['.', '_'] n && (n.length == 1 || (soundStart n && !Text.partIn ['_', '_'] n))

/-- The number is real. -/
def isReal (cs : List Char) : Bool :=
  cs.contains '.' || (!cs.contains 'x' && (cs.contains 'e' || cs.contains 'E'))

/-- The real number, if it is one. -/
def real? (cs : List Char) : Option Float :=
  if (cs.dropWhile (· != '.')) == ['.'] || !cs.head?.any Char.isDigit then none
  else readFloat? (String.ofList cs)

/-- The infinite or undefined number of a word. -/
def unusual? (cs : List Char) : Option Float :=
  let word := String.ofList (cs.map Char.toLower)
  if word = "inf" ∨ word = "nan" then readFloat? word else none

/-- The number, if it is one. -/
def number? (cs : List Char) : Option Setting :=
  if isReal cs then (real? cs).map .real
  else ((unusual? cs).map Setting.real).or ((readInt? (String.ofList cs)).map .whole)

/-- The number with the other sign. -/
def negated : Setting → Setting
  | .whole n => .whole (0 - n)
  | .real x => .real (0 - x)
  | v => v

end SettingValue

open SettingValue in
/-- The setting of a value; `sound` says that it is sound as a number. -/
def Setting.read (sound : Bool) (cs : List Char) : Except SettingsFault Setting :=
  let (negative, digits) := Numeral.sign cs
  if cs == "true".toList then .ok (.flag true)
  else if cs == "false".toList then .ok (.flag false)
  else match cs.head?.filter Scan.isQuote with
    | some q => do return .text (String.ofList (← quotedText q cs))
    | none =>
      match if sound then number? (digits.filter (· != '_')) else none with
      | some v => .ok (if negative then negated v else v)
      | none => .error .malformed

end CodeAtlas
