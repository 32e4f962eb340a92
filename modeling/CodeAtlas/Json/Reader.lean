import CodeAtlas.Json.Value
import CodeAtlas.Number.Numeral

/-!
# Reading JSON text

A reader for JSON text. Besides the standard it takes the words for the infinite and undefined
numbers, and of two members with one name the later value counts, in the place of the earlier. Whole
numbers and the nesting of values have limits.
-/

namespace CodeAtlas

/-- Why a text is no value. -/
inductive JsonFault where
  | malformed
  /-- A whole number has too many digits. -/
  | longNumber
  /-- Lists and objects are nested too deeply. -/
  | tooDeep
deriving DecidableEq

namespace Json

namespace Reader

/-- The most digits of a whole number. -/
def mostDigits : Nat := 4300

/-- The most levels of a value. -/
def mostLevels : Nat := 9997

/-- The outcome, malformed if there is none. -/
def wellFormed {α : Type} : Option α → Except JsonFault α
  | some a => .ok a
  | none => .error .malformed

/-- The characters behind blanks. -/
def skip (cs : List Char) : List Char :=
  cs.dropWhile fun c => c == ' ' || c == '\t' || c == '\n' || c == '\r'

/-- The value of a hexadecimal digit. -/
def hexDigit? (c : Char) : Option Nat :=
  if '0' ≤ c && c ≤ '9' then some (c.toNat - 48)
  else if 'a' ≤ c && c ≤ 'f' then some (c.toNat - 87)
  else if 'A' ≤ c && c ≤ 'F' then some (c.toNat - 55)
  else none

/-- The value of four digits. -/
def hex4? (a b c d : Char) : Option Nat := do
  let a ← hexDigit? a
  let b ← hexDigit? b
  let c ← hexDigit? c
  let d ← hexDigit? d
  return ((a * 16 + b) * 16 + c) * 16 + d

/-- The character of a letter behind a backslash. -/
def escape? : Char → Option Char
  | '"' => some '"'
  | '\\' => some '\\'
  | '/' => some '/'
  | 'b' => some '\x08'
  | 'f' => some '\x0c'
  | 'n' => some '\n'
  | 'r' => some '\r'
  | 't' => some '\t'
  | _ => none

/-- The code units up to the closing quote, and what follows it. -/
def units? : List Char → List Nat → Option (List Nat × List Char)
  | [], _ => none
  | '"' :: rest, acc => some (acc.reverse, rest)
  | '\\' :: 'u' :: a :: b :: c :: d :: rest, acc =>
    match hex4? a b c d with
    | some n => units? rest (n :: acc)
    | none => none
  | '\\' :: e :: rest, acc =>
    match escape? e with
    | some c => units? rest (c.toNat :: acc)
    | none => none
  | c :: rest, acc => if c.toNat < 32 || c == '\\' then none else units? rest (c.toNat :: acc)

/-- Surrogates joined in pairs; a lone one becomes the replacement character. -/
def joinPairs : List Nat → List Char
  | [] => []
  | [n] => [if 0xD800 ≤ n && n < 0xE000 then Char.ofNat 0xFFFD else Char.ofNat n]
  | n :: m :: rest =>
    if 0xD800 ≤ n && n < 0xDC00 && 0xDC00 ≤ m && m < 0xE000 then
      Char.ofNat (0x10000 + (n - 0xD800) * 1024 + (m - 0xDC00)) :: joinPairs rest
    else
      (if 0xD800 ≤ n && n < 0xE000 then Char.ofNat 0xFFFD else Char.ofNat n) ::
        joinPairs (m :: rest)

/-- A text up to its quote. -/
def text? (cs : List Char) : Option (String × List Char) :=
  (units? cs []).map fun (units, rest) => (String.ofList (joinPairs units), rest)

/-- The digits that open the characters. -/
def digits (cs : List Char) : List Nat × List Char :=
  ((cs.takeWhile Char.isDigit).map fun c => c.toNat - 48, cs.dropWhile Char.isDigit)

/-- A fraction, if there is one. -/
def fraction (cs : List Char) : List Nat × List Char :=
  match cs with
  | '.' :: rest =>
    match digits rest with
    | ([], _) => ([], cs)
    | found => found
  | _ => ([], cs)

/-- An exponent, if there is one. -/
def exponent? (cs : List Char) : Option (Int × List Char) :=
  match cs with
  | [] => none
  | mark :: rest =>
    if mark == 'e' || mark == 'E' then
      let (negative, rest) := Numeral.sign rest
      match digits rest with
      | ([], _) => none
      | (ds, rest) =>
        some (signedInt negative (Numeral.value ds), rest)
    else none

/-- An unsigned number: real with a fraction or an exponent, else whole. -/
def number (negative : Bool) (cs : List Char) : Except JsonFault (Json × List Char) :=
  match digits cs with
  | ([], _) => .error .malformed
  | (d :: ds, afterDigits) =>
    let (whole, rest) := if d = 0 then ([0], cs.drop 1) else (d :: ds, afterDigits)
    let (parts, rest) := fraction rest
    match parts, exponent? rest with
    | [], none =>
      if mostDigits < whole.length then .error .longNumber
      else .ok (.int (signedInt negative (Numeral.value whole)), rest)
    | parts, e =>
      let (shift, rest) := e.getD (0, rest)
      let size := nearestFloat (Numeral.value (whole ++ parts)) (shift - parts.length)
      .ok (.float (signed negative size), rest)

/-- What follows a word. -/
def after? (word : String) (cs : List Char) : Option (List Char) :=
  if word.toList.isPrefixOf cs then some (cs.drop word.toList.length) else none

/-- A word that stands for a value. -/
def word (word : String) (value : Json) (cs : List Char) : Except JsonFault (Json × List Char) :=
  wellFormed ((after? word cs).map (value, ·))

/-- A value that is no list or object. -/
def atom (cs : List Char) : Except JsonFault (Json × List Char) :=
  match cs with
  | 'n' :: _ => word "null" .null cs
  | 't' :: _ => word "true" (.bool true) cs
  | 'f' :: _ => word "false" (.bool false) cs
  | 'N' :: _ => word "NaN" (.float (0 / 0)) cs
  | 'I' :: _ => word "Infinity" (.float (1 / 0)) cs
  | '-' :: 'I' :: _ => word "-Infinity" (.float (-(1 / 0))) cs
  | '-' :: rest => number true rest
  | _ => number false cs

mutual

/-- The value that opens the characters; `levels` more may be opened in it. -/
def value : Nat → Nat → List Char → Except JsonFault (Json × List Char)
  | 0, _, _ => .error .malformed
  | fuel + 1, levels, cs =>
    match cs with
    | '"' :: rest => do
      let (s, rest) ← wellFormed (text? rest)
      return (.str s, rest)
    | '[' :: rest =>
      match levels with
      | 0 => .error .tooDeep
      | levels + 1 =>
        match skip rest with
        | ']' :: rest => .ok (.arr [], rest)
        | rest => items fuel levels rest []
    | '\x7b' :: rest =>
      match levels with
      | 0 => .error .tooDeep
      | levels + 1 =>
        match skip rest with
        | '\x7d' :: rest => .ok (.obj [], rest)
        | rest => members fuel levels rest []
    | _ => atom cs

/-- The items of a list up to its end, those before in `acc`, last first. -/
def items : Nat → Nat → List Char → List Json → Except JsonFault (Json × List Char)
  | 0, _, _, _ => .error .malformed
  | fuel + 1, levels, cs, acc =>
    match value fuel levels cs with
    | .error fault => .error fault
    | .ok (v, rest) =>
      match skip rest with
      | ',' :: rest => items fuel levels (skip rest) (v :: acc)
      | ']' :: rest => .ok (.arr (v :: acc).reverse, rest)
      | _ => .error .malformed

/-- The members of an object up to its end, those before in `acc`. -/
def members : Nat → Nat → List Char → Members → Except JsonFault (Json × List Char)
  | 0, _, _, _ => .error .malformed
  | fuel + 1, levels, cs, acc =>
    match cs with
    | '"' :: rest =>
      match text? rest with
      | none => .error .malformed
      | some (name, rest) =>
        match skip rest with
        | ':' :: rest =>
          match value fuel levels (skip rest) with
          | .error fault => .error fault
          | .ok (v, rest) =>
            match skip rest with
            | ',' :: rest => members fuel levels (skip rest) (Table.put acc name v)
            | '\x7d' :: rest => .ok (.obj (Table.put acc name v), rest)
            | _ => .error .malformed
        | _ => .error .malformed
    | _ => .error .malformed

end

end Reader

/-- The value of a text that holds one value and white space around it. -/
def parse (s : String) : Except JsonFault Json :=
  let cs := s.toList
  match Reader.value (2 * cs.length + 2) Reader.mostLevels (Reader.skip cs) with
  | .ok (v, rest) => if (Reader.skip rest).isEmpty then .ok v else .error .malformed
  | .error fault => .error fault

/-- The value of a text, if it is one. -/
def parse? (s : String) : Option Json := (parse s).toOption

end Json

end CodeAtlas
