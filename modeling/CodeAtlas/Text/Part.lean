/-!
# Parts of a text

Looking for a part of a text, cutting a text at a part or into lines, and joining parts.
-/

namespace CodeAtlas.Text

/-- The characters hold a part. -/
def partIn (part : List Char) : List Char → Bool
  | [] => part.isEmpty
  | c :: cs => part.isPrefixOf (c :: cs) || partIn part cs

/-- The text holds a part. -/
def hasPart (s part : String) : Bool := partIn part.toList s.toList

/-- The text starts with a part. -/
def startsWith (s part : String) : Bool := part.toList.isPrefixOf s.toList

/-- The text ends with a part. -/
def endsWith (s part : String) : Bool := part.toList.isSuffixOf s.toList

/-- The characters before a part. -/
def before (part : List Char) : List Char → List Char
  | [] => []
  | c :: cs => if part.isPrefixOf (c :: cs) then [] else c :: before part cs

/-- The text before a part. -/
def upTo (part s : String) : String := String.ofList (before part.toList s.toList)

/-- The pieces between separators. -/
def pieces (sep : Char) : List Char → List (List Char)
  | [] => [[]]
  | c :: cs =>
    if c = sep then [] :: pieces sep cs
    else match pieces sep cs with
      | [] => [[c]]
      | p :: ps => (c :: p) :: ps

/-- The text cut at a character. -/
def splitOn (sep : Char) (s : String) : List String := (pieces sep s.toList).map String.ofList

/-- One character replaced. -/
def replaceChar (old new : Char) (s : String) : String :=
  String.ofList (s.toList.map fun c => if c = old then new else c)

/-- Texts joined. -/
def joinWith (sep : String) (parts : List String) : String := sep.intercalate parts

/-- The text without some at its start. -/
def dropLeading (p : Char → Bool) (s : String) : String := String.ofList (s.toList.dropWhile p)

/-- The text without some at its end. -/
def dropTrailing (p : Char → Bool) (s : String) : String :=
  String.ofList (s.toList.reverse.dropWhile p).reverse

/-! ## Lines -/

/-- The characters with every line end written as one line feed. -/
def unixLines : List Char → List Char
  | '\r' :: '\n' :: rest => '\n' :: unixLines rest
  | '\r' :: rest => '\n' :: unixLines rest
  | c :: rest => c :: unixLines rest
  | [] => []

/-- The lines of a text. -/
def linesOf (text : String) : List String := splitOn '\n' (String.ofList (unixLines text.toList))

end CodeAtlas.Text
