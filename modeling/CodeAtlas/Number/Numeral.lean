import CodeAtlas.Number.Decimal
import CodeAtlas.Text.CharClass
import CodeAtlas.Text.Part

/-!
# Reading numerals

Numbers given as text: white space around them is ignored, a sign may stand in front, and an
underscore may stand between two digits. In data digits of every script are read; on a command line
only the ten plain ones are.
-/

namespace CodeAtlas

/-- The number nearest to a decimal. -/
def nearestFloat (digits : Nat) (exponent : Int) : Float :=
  let lead := exponent + Decimal.digitCount digits
  if digits = 0 ∨ lead < -400 then 0
  else if 400 < lead then 1 / 0
  else nearestQuotient (digits * Nat.pow 10 exponent.toNat) (Nat.pow 10 (-exponent).toNat)

namespace Numeral

/-- The value of a basic digit. -/
def plainDigit? (c : Char) : Option Nat := if c.isDigit then some (c.toNat - 48) else none

/-- The digits that open the characters. If `joined`, underscores between two of them are passed
over; `inside` says that one was just read. -/
def digitsBy (digit? : Char → Option Nat) (joined inside : Bool) :
    List Char → List Nat × List Char
  | [] => ([], [])
  | c :: cs =>
    match digit? c with
    | some d =>
      let (ds, rest) := digitsBy digit? joined true cs
      (d :: ds, rest)
    | none =>
      if joined && inside && c == '_' && cs.head?.any (digit? · |>.isSome) then
        digitsBy digit? joined false cs
      else ([], c :: cs)

/-- Digits of any script. -/
def digits (cs : List Char) : List Nat × List Char := digitsBy Text.digitValue? true false cs

/-- Basic digits. -/
def plainDigits (cs : List Char) : List Nat × List Char := digitsBy plainDigit? false false cs

/-- Basic digits with underscores. -/
def joinedDigits (cs : List Char) : List Nat × List Char := digitsBy plainDigit? true false cs

/-- The number of digits. -/
def value (ds : List Nat) : Nat := ds.foldl (fun n d => 10 * n + d) 0

/-- A sign, and what follows it. -/
def sign : List Char → Bool × List Char
  | '-' :: cs => (true, cs)
  | '+' :: cs => (false, cs)
  | cs => (false, cs)

/-- An exponent up to the end. -/
def exponent? (digits : List Char → List Nat × List Char) : List Char → Option Int
  | [] => some 0
  | c :: cs =>
    if c == 'e' || c == 'E' then
      let (negative, cs) := sign cs
      match digits cs with
      | ([], _) => none
      | (ds, []) => some (signedInt negative (value ds))
      | _ => none
    else none

/-- A decimal up to the end. -/
def decimal? (digits : List Char → List Nat × List Char) (cs : List Char) : Option Float :=
  let (whole, rest) := digits cs
  let (fraction, rest) := match rest with
    | '.' :: rest => digits rest
    | _ => ([], rest)
  if whole.isEmpty && fraction.isEmpty then none
  else
    (exponent? digits rest).map fun e =>
      nearestFloat (value (whole ++ fraction)) (e - fraction.length)

/-- A number up to the end. -/
def float? (digits : List Char → List Nat × List Char) (cs : List Char) : Option Float :=
  let (negative, cs) := sign cs
  let word := String.ofList (cs.map Char.toLower)
  let size :=
    if word = "inf" ∨ word = "infinity" then some (1 / 0)
    else if word = "nan" then some (0 / 0)
    else decimal? digits cs
  size.map (signed negative)

/-- The characters without underscores, if each stands between two others. -/
def withoutUnderscores? (cs : List Char) : Option (List Char) :=
  if cs.head? == some '_' || cs.getLast? == some '_' || Text.partIn ['_', '_'] cs then none
  else some (cs.filter (· != '_'))

/-- The text without white space around it. -/
def bare (s : String) : List Char := Text.trimBy Text.isWhite s.toList

/-- No whole number in decimal digits has more of them than this. -/
def mostDigits : Nat := 4300

/-- The value of a digit of any script or of a hexadecimal letter. -/
def anyDigit? (c : Char) : Option Nat :=
  (Text.digitValue? c).or
    (if 'a' ≤ c ∧ c ≤ 'f' then some (c.toNat - 87)
    else if 'A' ≤ c ∧ c ≤ 'F' then some (c.toNat - 55)
    else none)

/-- The base that a letter tells. -/
def base? (c : Char) : Option Nat :=
  match c.toLower with
  | 'x' => some 16
  | 'o' => some 8
  | 'b' => some 2
  | _ => none

/-- The base of a number, and its digits. -/
def based (cs : List Char) : Nat × List Char :=
  match cs with
  | zero :: c :: rest =>
    match Text.digitValue? zero, base? c with
    | some 0, some base => (base, rest)
    | _, _ => (10, cs)
  | _ => (10, cs)

/-- Nothing, or a point and zeros. -/
def isZeroTail : List Char → Bool
  | [] => true
  | '.' :: cs => !cs.isEmpty && cs.all (· == '0')
  | _ => false

end Numeral

/-- The number that a text stands for. -/
def readFloat? (s : String) : Option Float := Numeral.float? Numeral.digits (Numeral.bare s)

/-- The whole number of a text in data: a zero and a letter tell a base, and no number but zero has
other zeros in front. -/
def readInt? (s : String) : Option Int := do
  let (negative, cs) := Numeral.sign (Numeral.bare s)
  let (base, cs) := Numeral.based cs
  let ds ← cs.mapM Numeral.anyDigit?
  let padded := ds.head? == some 0 && ds.any (0 < ·)
  if ds.isEmpty || ds.any (base ≤ ·) then none
  else if base = 10 ∧ (padded ∨ Numeral.mostDigits < ds.length) then none
  else some (signedInt negative (ds.foldl (fun n d => base * n + d) 0))

/-- The whole number of a text on a command line, perhaps with a fraction of zeros. -/
def plainInt? (s : String) : Option Int :=
  let (negative, cs) := Numeral.sign (Numeral.bare s)
  let (ds, rest) := Numeral.joinedDigits cs
  let counted := (ds.dropWhile (· == 0)).length
  if ds.isEmpty || !Numeral.isZeroTail rest || decide (Numeral.mostDigits < counted) then none
  else some (signedInt negative (Numeral.value ds))

/-- The number of a text on a command line, with underscores left out if need be. -/
def plainFloat? (s : String) : Option Float :=
  (Numeral.float? Numeral.plainDigits (Numeral.bare s)).or
    ((Numeral.withoutUnderscores? s.toList).bind (Numeral.float? Numeral.plainDigits))

end CodeAtlas
