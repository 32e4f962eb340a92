import CodeAtlas.Json.Value

/-!
# Web requests and addresses

What is posted to services, and the addresses it can be sent to.
-/

namespace CodeAtlas

/-! ## Web requests -/

/-- What is posted, and where. -/
structure WebRequest where
  url : String
  payload : Json
  headers : Table String String
  timeout : Amount

/-- The header of a JSON request. -/
def jsonHeader : String × String := ("Content-Type", "application/json")

/-- The header with a key. -/
def bearerHeader (key : String) : String × String := ("Authorization", "Bearer " ++ key)

/-! ## Web addresses

What stands between two slashes after the scheme and the next delimiter names the host, behind a
user if there is one. If it has brackets, the host is a numeric one. -/

namespace WebAddress

/-- The text without angle brackets and a leading mark. -/
def unwrapped (s : String) : String :=
  let s := Text.trim s
  let bare := match s.toList with
    | '<' :: rest =>
      if rest.getLast? == some '>' then Text.trim (String.ofList rest.dropLast) else s
    | _ => s
  if Text.startsWith bare "URL:" then Text.trim (String.ofList (bare.toList.drop 4)) else bare

/-- What stands before the last fragment, and the fragment if there is one. -/
def splitFragment (cs : List Char) : List Char × Option (List Char) :=
  match cs.reverse.span (· != '#') with
  | (_, []) => (cs, none)
  | (fragment, _ :: before) => (before.reverse, some fragment.reverse)

/-- A scheme, without slashes, and a colon open the characters. -/
def hasScheme (cs : List Char) : Bool :=
  match cs.span fun c => c != ':' && c != '/' with
  | (scheme, ':' :: _) => !scheme.isEmpty
  | _ => false

/-! ## Numeric hosts -/

/-- The digit is hexadecimal. -/
def isHexDigit (c : Char) : Bool :=
  c.isDigit || ('a' ≤ c && c ≤ 'f') || ('A' ≤ c && c ≤ 'F')

/-- A group of up to four digits. -/
def isGroup (cs : List Char) : Bool := !cs.isEmpty && cs.length ≤ 4 && cs.all isHexDigit

/-- A number below 256. -/
def isByte (cs : List Char) : Bool :=
  cs.all Char.isDigit && (cs == ['0'] || cs.head?.any (· != '0')) && cs.length ≤ 3 &&
    cs.foldl (fun n c => 10 * n + (c.toNat - 48)) 0 < 256

/-- Four numbers with points. -/
def isFourBytes (cs : List Char) : Bool :=
  let parts := Text.pieces '.' cs
  parts.length == 4 && parts.all isByte

/-- The parts between colons, four bytes at the end as two groups. -/
def groupsOf? (cs : List Char) : Option (List (List Char)) :=
  let parts := Text.pieces ':' cs
  let last := parts.getLastD []
  if parts.length < 3 then none
  else if last.contains '.' then
    if isFourBytes last then some (parts.dropLast ++ [['0'], ['0']]) else none
  else some parts

/-- Eight groups, or fewer around one gap: an empty part inside, doubled at an end. -/
def isGroups (groups : List (List Char)) : Bool :=
  let inner := (groups.drop 1).dropLast
  match inner.countP (·.isEmpty) with
  | 0 => groups.length == 8 && groups.all isGroup
  | 1 =>
    let (more, rest) := (groups.drop 1).span (!·.isEmpty)
    let high := groups.take 1 ++ more
    let low := rest.drop 1
    let high := if high == [[]] then [] else high
    let low := if low == [[]] then [] else low
    high.all isGroup && low.all isGroup && decide (high.length + low.length < 8)
  | _ => false

/-- A host of the sixth version, perhaps with a zone. -/
def isSixthHost (cs : List Char) : Bool :=
  let (digits, zone) := cs.span (· != '%')
  let zoneFits := match zone with
    | [] => true
    | _ :: name => !name.isEmpty && !name.contains '%'
  zoneFits && (groupsOf? digits).any fun groups => groups.length ≤ 9 && isGroups groups

/-- A host of a version to come. -/
def isFutureHost (cs : List Char) : Bool :=
  match cs with
  | 'v' :: rest =>
    let (version, rest) := rest.span isHexDigit
    !version.isEmpty && rest.head? == some '.' && decide (2 ≤ rest.length)
  | _ => false

/-- A host in brackets. -/
def isNumericHost (cs : List Char) : Bool :=
  if cs.head? == some 'v' then isFutureHost cs else isSixthHost cs

/-! ## The part that names the host -/

/-- Characters that under compatibility hold a delimiter. -/
def hiddenDelimiters : List Nat :=
  [
    0x2047, 0x2048, 0x2049, 0x2100, 0x2101, 0x2105, 0x2106, 0x2A74, 0xFE13, 0xFE16, 0xFE55, 0xFE56,
    0xFE5F, 0xFE6B, 0xFF03, 0xFF0F, 0xFF1A, 0xFF1F, 0xFF20]

/-- The host of a part with brackets: what is in brackets at its start, if only a port follows, or
before a port if they belong to a user. -/
def bracketedHost? (cs : List Char) : Option (List Char) :=
  let place := (cs.reverse.takeWhile (· != '@')).reverse
  match place with
  | '[' :: rest =>
    match rest.span (· != ']') with
    | (host, []) => some host
    | (host, _ :: port) => if port.head?.all (· == ':') then some host else none
  | _ => if place.contains '[' then none else some (place.takeWhile (· != ':'))

/-- Brackets in the part are of both kinds, and the host is a numeric one. -/
def hasSoundBrackets (cs : List Char) : Bool :=
  if cs.contains '[' || cs.contains ']' then
    cs.contains '[' && cs.contains ']' && (bracketedHost? cs).any isNumericHost
  else true

/-- The character may stand in a scheme. -/
def isSchemeChar (c : Char) : Bool := c.isAlphanum || c == '+' || c == '-' || c == '.'

/-- What follows the scheme; all characters if they open with none. -/
def afterScheme (cs : List Char) : List Char :=
  match cs.span (· != ':') with
  | (scheme, ':' :: rest) =>
    if scheme.head?.any Char.isAlpha && scheme.all isSchemeChar then rest else cs
  | _ => cs

/-- The address without what is passed over. -/
def cleaned (cs : List Char) : List Char :=
  (cs.dropWhile fun c => decide (c.toNat ≤ 32)).filter fun c =>
    c != '\t' && c != '\r' && c != '\n'

/-- The host of an address. -/
def hostPart (cs : List Char) : List Char :=
  match afterScheme (cleaned cs) with
  | '/' :: '/' :: rest => rest.takeWhile fun c => c != '/' && c != '?' && c != '#'
  | _ => []

/-- The host of an address is sound. -/
def hasSoundHost (cs : List Char) : Bool :=
  let host := hostPart cs
  hasSoundBrackets host && !host.any fun c => hiddenDelimiters.contains c.toNat

end WebAddress

/-- The address that a text names, without an empty fragment at its end. -/
def webAddress? (s : String) : Option String :=
  let (before, fragment) := WebAddress.splitFragment (WebAddress.unwrapped s).toList
  let address := match fragment with
    | some (c :: cs) => before ++ '#' :: c :: cs
    | _ => before
  if WebAddress.hasScheme before && WebAddress.hasSoundHost address then
    some (String.ofList address)
  else none

end CodeAtlas
