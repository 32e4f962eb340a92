import CodeAtlas.Source.Outline

/-!
# Paths and file trees

Where files are, and what a file tree holds.
-/

namespace CodeAtlas

/-! ## Paths

Empty parts and dots are dropped when a path is read; two dots stay, because they mean something
else behind a link. -/

/-- Where something is. -/
structure Path where
  /-- Nothing for a relative path; else one slash, or two if just two were written. -/
  root : String := ""
  parts : List String := []
deriving DecidableEq, Inhabited

namespace Path

/-- The slashes that open a path. -/
def rootOf (s : String) : String :=
  match (s.toList.takeWhile (· == '/')).length with
  | 0 => ""
  | 2 => "//"
  | _ => "/"

/-- The path that a text means. -/
def ofText (s : String) : Path where
  root := rootOf s
  parts := (Text.splitOn '/' s).filter fun part => part != "" && part != "."

/-- The path as a text. -/
def text (p : Path) : String :=
  let s := p.root ++ Text.joinWith "/" p.parts
  if s.isEmpty then "." else s

/-- The path is from the top. -/
def isAbsolute (p : Path) : Bool := p.root != ""

/-- The second path seen from the first, unless it is from the top. -/
def join (p q : Path) : Path := if q.isAbsolute then q else { p with parts := p.parts ++ q.parts }

/-- The path of an entry of a folder. -/
def child (p : Path) (name : String) : Path := { p with parts := p.parts ++ [name] }

/-- The last part of a path. -/
def name (p : Path) : String := p.parts.getLastD ""

/-- The name from its last dot on, if that is neither first nor last. -/
def extension (p : Path) : String :=
  let cs := p.name.toList
  let ending := cs.reverse.takeWhile (· != '.')
  if ending.length + 1 < cs.length && !ending.isEmpty then
    String.ofList ('.' :: ending.reverse)
  else ""

/-- The path seen from a folder around it. -/
def relativeTo? (p base : Path) : Option Path :=
  if p.root == base.root && base.parts.isPrefixOf p.parts then
    some { parts := p.parts.drop base.parts.length }
  else none

/-- The text of a path below a folder, or of the whole path. -/
def under (p base : Path) : String := ((p.relativeTo? base).getD p).text

end Path

/-! ## File trees -/

/-- What a parser makes of a file. -/
inductive Reading where
  | tree (root : SyntaxNode)
  /-- An outline that is there already. -/
  | ready (outline : Outline)
  /-- The reading breaks off. -/
  | broken

/-- A file, with no text if its bytes are none. -/
structure SourceFile where
  text : Option String
  reading : Reading

/-- A file, a folder or a link. -/
inductive Entry where
  | file (f : SourceFile)
  | folder (entries : List (String × Entry))
  | link (target : String)

instance : Inhabited Entry := ⟨.folder []⟩

namespace Entry

/-- The entry that names lead to. -/
def below? : List String → Entry → Option Entry
  | [], e => some e
  | name :: rest, .folder entries => (Table.get? entries name).bind (below? rest)
  | _ :: _, _ => none

/-- The entry put below names, with folders for what is missing. -/
def putAt : List String → Entry → Entry → Entry
  | [], e, _ => e
  | name :: rest, e, .folder entries =>
    .folder (Table.put entries name (putAt rest e ((Table.get? entries name).getD (.folder []))))
  | name :: rest, e, _ => .folder [(name, putAt rest e (.folder []))]

/-- The entry put below names from the top. -/
def put (tree : Entry) (names : List String) (e : Entry) : Entry := putAt names e tree

mutual

/-- The folders of an entry. -/
def weight : Entry → Nat
  | .file _ => 0
  | .link _ => 0
  | .folder entries => 1 + weightOf entries

/-- The folders of entries. -/
def weightOf : List (String × Entry) → Nat
  | [] => 0
  | (_, e) :: rest => weight e + weightOf rest

end

end Entry

/-- A file of text without definitions. -/
def SourceFile.plain (text : String) : SourceFile where
  text := some text
  reading := .tree (.mk ⟨"", none, true, "", 1, 1⟩ [])

end CodeAtlas
