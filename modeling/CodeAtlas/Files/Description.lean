import CodeAtlas.Files.Workspace
import CodeAtlas.Text.Utf8

/-!
# Described file trees

A file tree can be described by a JSON value: files with their text or bytes, with a syntax tree or
an outline that is there already, and folders and links. A node of a syntax tree is written as a
list: kind, field, named or not, first and last byte, children.
-/

namespace CodeAtlas

/-! ## Bytes -/

/-- The value of a hexadecimal digit. -/
def hexValue? (c : Char) : Option Nat :=
  if '0' ≤ c ∧ c ≤ '9' then some (c.toNat - 48)
  else if 'a' ≤ c ∧ c ≤ 'f' then some (c.toNat - 87)
  else if 'A' ≤ c ∧ c ≤ 'F' then some (c.toNat - 55)
  else none

/-- The bytes that pairs of digits stand for. -/
def hexBytes : List Char → List UInt8
  | a :: b :: rest =>
    match hexValue? a, hexValue? b with
    | some high, some low => (16 * high + low).toUInt8 :: hexBytes rest
    | _, _ => hexBytes rest
  | _ => []

/-- The bytes of a file, and for each place how many lines end before it. -/
structure SourceText where
  bytes : ByteArray
  linesBefore : Array Nat

namespace SourceText

/-- The lines that end before each place. -/
def countLines (bytes : List UInt8) : Array Nat :=
  bytes.foldl (fun counts b => counts.push (counts.back?.getD 0 + if b = 10 then 1 else 0)) #[0]

/-- A text by its bytes. -/
def ofBytes (bytes : List UInt8) : SourceText where
  bytes := ByteArray.mk bytes.toArray
  linesBefore := countLines bytes

/-- The text between two places. -/
def slice (s : SourceText) (first last : Nat) : String :=
  Utf8.lenient (s.bytes.extract first last).toList

/-- The number of the line at a place. -/
def lineAt (s : SourceText) (place : Nat) : Nat :=
  (s.linesBefore[min place s.bytes.size]?).getD 0 + 1

end SourceText

/-! ## Trees and outlines -/

/-- A natural number that is described. -/
def describedNat (j : Json) : Nat := (j.int?.getD 0).toNat

mutual

/-- A syntax tree that is described. -/
def SyntaxNode.ofJson (s : SourceText) : Json → SyntaxNode
  | .arr [kind, field, named, first, last, .arr children] =>
    .mk
      { kind := kind.str?.getD ""
        field := field.str?
        named := !named.isVoid
        text := s.slice (describedNat first) (describedNat last)
        startLine := s.lineAt (describedNat first)
        endLine := s.lineAt (describedNat last) }
      (SyntaxNode.listOfJson s children)
  | _ => .mk ⟨"", none, true, "", 1, 1⟩ []

/-- The parts of a syntax tree that is described. -/
def SyntaxNode.listOfJson (s : SourceText) : List Json → List SyntaxNode
  | [] => []
  | j :: rest => SyntaxNode.ofJson s j :: SyntaxNode.listOfJson s rest

end

/-- A text under a name. -/
def describedText (j : Json) (name otherwise : String) : String :=
  ((j.get? name).bind Json.str?).getD otherwise

/-- An integer under a name. -/
def describedInt (j : Json) (name : String) : Int := ((j.get? name).bind Json.int?).getD 0

/-- The items under a name. -/
def describedItems (j : Json) (name : String) : List Json :=
  ((j.get? name).bind Json.items?).getD []

/-- A definition that is described. -/
def Entity.ofJson (j : Json) : Entity where
  id := describedText j "id" ""
  kind := describedText j "type" ""
  name := describedText j "name" ""
  startLine := describedInt j "start_line"
  endLine := describedInt j "end_line"
  parentId := (j.get? "parent_id").bind Json.str?

/-- An import that is described. -/
def ImportLine.ofJson (j : Json) : ImportLine where
  source := describedText j "source" ""
  specifiers := (describedItems j "specifiers").filterMap Json.str?
  isDefault := ((j.get? "is_default").bind Json.bool?).getD false
  line := describedInt j "line"

/-- An export that is described. -/
def ExportLine.ofJson (j : Json) : ExportLine where
  name := describedText j "name" ""
  isDefault := ((j.get? "is_default").bind Json.bool?).getD false
  line := describedInt j "line"

/-- An outline that is described. -/
def Outline.ofJson (j : Json) : Outline where
  path := ""
  language := describedText j "language" "typescript"
  entities := (describedItems j "entities").map Entity.ofJson
  imports := (describedItems j "imports").map ImportLine.ofJson
  exports := (describedItems j "exports").map ExportLine.ofJson

/-! ## Files -/

/-- The bytes of a file that is described. -/
def describedBytes (j : Json) : List UInt8 :=
  match j with
  | .str s => Utf8.bytes s
  | _ =>
    match (j.get? "hex").bind Json.str? with
    | some hex => hexBytes hex.toList
    | none => Utf8.bytes (describedText j "text" "")

/-- What a parser makes of a file that is described. -/
def describedReading (j : Json) (bytes : List UInt8) : Reading :=
  if (j.get? "parse_error").any (!·.isVoid) then .broken
  else
    match j.get? "parsed" with
    | some outline => .ready (Outline.ofJson outline)
    | none => .tree (SyntaxNode.ofJson (.ofBytes bytes) ((j.get? "tree").getD .null))

/-- A file that is described. -/
def SourceFile.ofJson (j : Json) : SourceFile :=
  let bytes := describedBytes j
  { text := Utf8.strict? bytes, reading := describedReading j bytes }

namespace Entry

/-- Files put into a folder. -/
def putFiles (folder : List String) (files : Members) (tree : Entry) : Entry :=
  files.foldl
    (fun tree (path, j) => tree.put (folder ++ (Path.ofText path).parts) (.file (.ofJson j))) tree

/-- A folder put into the tree, unless it is there. -/
def putFolder (tree : Entry) (names : List String) : Entry :=
  match tree.below? names with
  | some (.folder _) => tree
  | _ => tree.put names (.folder [])

/-- Folders put into a folder. -/
def putFolders (folder : List String) (paths : List String) (tree : Entry) : Entry :=
  paths.foldl (fun tree path => tree.putFolder (folder ++ (Path.ofText path).parts)) tree

/-- Links put into a folder. -/
def putLinks (folder : List String) (links : Members) (tree : Entry) : Entry :=
  links.foldl
    (fun tree (path, j) =>
      tree.put (folder ++ (Path.ofText path).parts) (.link (j.str?.getD ""))) tree

end Entry

/-- The home folders where only the user's own is known. -/
def ownHome (home : Path) (user : String) : Option Path := if user.isEmpty then some home else none

end CodeAtlas
