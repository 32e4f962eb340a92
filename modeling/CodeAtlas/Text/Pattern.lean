import CodeAtlas.Text.CharClass

/-!
# Line patterns

A pattern is a sequence of items: the edge of a word, one character of a class, or a run of
characters of a class. Matching is a fold over the items, each of which turns a matcher for the
rest of the line into a matcher from where it stands.
-/

namespace CodeAtlas.Text

/-- Looks at the character before the place, if any, and the rest of the line. -/
abbrev Matcher : Type := Option Char → List Char → Bool

/-- What a pattern asks for in turn. -/
inductive PatternItem where
  /-- The edge of a word: a word character on exactly one side. -/
  | edge
  /-- One character of a class. -/
  | one (p : Char → Bool)
  /-- Any number of characters of a class. -/
  | many (p : Char → Bool)

/-- Items one after another. -/
abbrev Pattern : Type := List PatternItem

/-- A word character is there. -/
def wordThere (c : Option Char) : Bool := c.any isWord

/-- The place is at the edge of a word. -/
def atEdge (previous next : Option Char) : Bool := wordThere previous != wordThere next

/-- As many characters as leave a match. -/
def manyThen (p : Char → Bool) (rest : Matcher) : Matcher
  | previous, [] => rest previous []
  | previous, c :: cs => rest previous (c :: cs) || (p c && manyThen p rest (some c) cs)

namespace PatternItem

/-- The item, then the rest. -/
def before (rest : Matcher) : PatternItem → Matcher
  | .edge => fun previous cs => atEdge previous cs.head? && rest previous cs
  | .one p => fun _ cs =>
    match cs with
    | [] => false
    | c :: cs => p c && rest (some c) cs
  | .many p => manyThen p rest

end PatternItem

namespace Pattern

/-- The characters of a text. -/
def literal (s : String) : Pattern := s.toList.map fun c => .one (· == c)

/-- One blank or more. -/
def blanks : Pattern := [.one isBlank, .many isBlank]

/-- One word character or more. -/
def word : Pattern := [.one isWord, .many isWord]

/-- The pattern matches here. -/
def matchesAt (pattern : Pattern) : Matcher :=
  pattern.foldr (fun item rest => item.before rest) fun _ _ => true

/-- The pattern matches here or later. -/
def occursFrom (pattern : Pattern) : Matcher
  | previous, [] => pattern.matchesAt previous []
  | previous, c :: cs =>
    pattern.matchesAt previous (c :: cs) || occursFrom pattern (some c) cs

/-- The pattern matches in a line. -/
def occursIn (pattern : Pattern) (line : String) : Bool := occursFrom pattern none line.toList

end Pattern

end CodeAtlas.Text
