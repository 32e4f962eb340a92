import CodeAtlas.Json.Value

/-!
# JSON values as text

JSON text in two layouts, and values in plain words.
-/

namespace CodeAtlas.Json

/-! ## Writing JSON text

Characters outside the basic Latin block are written as escapes of their 16-bit units. -/

namespace Writer

/-- The digit of a number below sixteen. -/
def hexDigit (n : Nat) : Char := if n < 10 then Char.ofNat (48 + n) else Char.ofNat (87 + n)

/-- A unit as an escape. -/
def unitEscape (n : Nat) : List Char :=
  ['\\', 'u', hexDigit (n / 4096 % 16), hexDigit (n / 256 % 16), hexDigit (n / 16 % 16),
    hexDigit (n % 16)]

/-- The character as it is written between quotes. -/
def escape (c : Char) : List Char :=
  if c == '"' then ['\\', '"']
  else if c == '\\' then ['\\', '\\']
  else if c == '\n' then ['\\', 'n']
  else if c == '\r' then ['\\', 'r']
  else if c == '\t' then ['\\', 't']
  else if c == '\x08' then ['\\', 'b']
  else if c == '\x0c' then ['\\', 'f']
  else
    let n := c.toNat
    if 32 ≤ n && n < 127 then [c]
    else if n < 0x10000 then unitEscape n
    else
      let m := n - 0x10000
      unitEscape (0xD800 + m / 1024) ++ unitEscape (0xDC00 + m % 1024)

/-- The text of a real number, also of one that is infinite or undefined. -/
def realWord (x : Float) : String :=
  if x.isNaN then "NaN"
  else if x.isInf then (if x < 0 then "-Infinity" else "Infinity")
  else realText x

end Writer

/-- The text between quotes. -/
def quote (s : String) : String := String.ofList ('"' :: (s.toList.flatMap Writer.escape ++ ['"']))

mutual

/-- The value in one line. -/
def line : Json → String
  | .null => "null"
  | .bool b => if b then "true" else "false"
  | .int n => intText n
  | .float x => Writer.realWord x
  | .str s => quote s
  | .arr items => "[" ++ ", ".intercalate (itemLines items) ++ "]"
  | .obj ms => "\x7b" ++ ", ".intercalate (memberLines ms) ++ "\x7d"

/-- The items, each in one line. -/
def itemLines : List Json → List String
  | [] => []
  | v :: vs => line v :: itemLines vs

/-- The members, each in one line. -/
def memberLines : List (String × Json) → List String
  | [] => []
  | (name, v) :: ms => (quote name ++ ": " ++ line v) :: memberLines ms

end

namespace Writer

/-- Parts one a line between brackets, the last bracket at the margin. -/
def block (opening closing margin : String) (parts : List String) : String :=
  if parts.isEmpty then opening ++ closing
  else
    let inner := margin ++ "  "
    opening ++ "\n" ++ (",\n").intercalate (parts.map (inner ++ ·)) ++ "\n" ++ margin ++ closing

end Writer

mutual

/-- The value with one item a line, lines after the first at `margin`. -/
def indentedAt (margin : String) : Json → String
  | .arr items => Writer.block "[" "]" margin (itemsAt (margin ++ "  ") items)
  | .obj ms => Writer.block "\x7b" "\x7d" margin (membersAt (margin ++ "  ") ms)
  | .null => "null"
  | .bool b => if b then "true" else "false"
  | .int n => intText n
  | .float x => Writer.realWord x
  | .str s => quote s

/-- The items, one a line. -/
def itemsAt (margin : String) : List Json → List String
  | [] => []
  | v :: vs => indentedAt margin v :: itemsAt margin vs

/-- The members, one a line. -/
def membersAt (margin : String) : List (String × Json) → List String
  | [] => []
  | (name, v) :: ms => (quote name ++ ": " ++ indentedAt margin v) :: membersAt margin ms

end

/-- The value with one item a line. -/
def indented (v : Json) : String := indentedAt "" v

/-! ## Values as plain words

Nothing is `None`, truth values are `True` and `False`, and texts inside lists and objects are put
between quotes. -/

namespace Display

/-- Hexadecimal digits. -/
def hex : Nat → Nat → List Char
  | 0, _ => []
  | count + 1, n => hex count (n / 16) ++ [Writer.hexDigit (n % 16)]

/-- The character between such quotes. -/
def escape (mark c : Char) : List Char :=
  if c == mark || c == '\\' then ['\\', c]
  else if c == '\n' then ['\\', 'n']
  else if c == '\r' then ['\\', 'r']
  else if c == '\t' then ['\\', 't']
  else if Text.isPrintable c then [c]
  else if c.toNat < 256 then '\\' :: 'x' :: hex 2 c.toNat
  else if c.toNat < 65536 then '\\' :: 'u' :: hex 4 c.toNat
  else '\\' :: 'U' :: hex 8 c.toNat

/-- The text between single quotes, or double ones if only single ones are in it. -/
def quoted (s : String) : String :=
  let cs := s.toList
  let mark := if cs.contains '\'' && !cs.contains '"' then '"' else '\''
  String.ofList (mark :: (cs.flatMap (escape mark) ++ [mark]))

end Display

mutual

/-- The value inside another one. -/
def nested : Json → String
  | .null => "None"
  | .bool b => if b then "True" else "False"
  | .int n => intText n
  | .float x => realText x
  | .str s => Display.quoted s
  | .arr items => "[" ++ ", ".intercalate (nestedItems items) ++ "]"
  | .obj ms => "\x7b" ++ ", ".intercalate (nestedMembers ms) ++ "\x7d"

/-- The items of a list. -/
def nestedItems : List Json → List String
  | [] => []
  | v :: vs => nested v :: nestedItems vs

/-- The members of an object. -/
def nestedMembers : List (String × Json) → List String
  | [] => []
  | (name, v) :: ms => (Display.quoted name ++ ": " ++ nested v) :: nestedMembers ms

end

/-- The value in plain words. -/
def display : Json → String
  | .str s => s
  | v => nested v

end CodeAtlas.Json
