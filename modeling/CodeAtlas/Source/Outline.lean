import CodeAtlas.Json.Value

/-!
# Syntax trees and outlines

What a parser makes of a text, and what is noted of it.
-/

namespace CodeAtlas

/-! ## Syntax trees

Only named nodes stand for something beyond punctuation. -/

/-- What a node of a tree says itself. -/
structure SyntaxLabel where
  kind : String
  field : Option String
  named : Bool
  text : String
  startLine : Nat
  endLine : Nat
deriving Inhabited

/-- What a parser makes of a text. -/
inductive SyntaxNode where
  | mk (label : SyntaxLabel) (children : List SyntaxNode)
deriving Inhabited

namespace SyntaxNode

/-- What the node says itself. -/
def label : SyntaxNode → SyntaxLabel
  | .mk label _ => label

/-- The parts of a node. -/
def children : SyntaxNode → List SyntaxNode
  | .mk _ children => children

/-- The kind of a node. -/
def kind (n : SyntaxNode) : String := n.label.kind

/-- The text of a node. -/
def text (n : SyntaxNode) : String := n.label.text

/-- The node fills a field. -/
def fills (n : SyntaxNode) (field : String) : Bool := n.label.field == some field

/-- The parts with names. -/
def namedChildren (n : SyntaxNode) : List SyntaxNode := n.children.filter (·.label.named)

/-- The first part in a field. -/
def inField? (n : SyntaxNode) (field : String) : Option SyntaxNode :=
  n.children.find? (·.fills field)

/-- All parts in a field. -/
def allInField (n : SyntaxNode) (field : String) : List SyntaxNode :=
  n.children.filter (·.fills field)

/-- The text of the first part in a field, empty if there is none. -/
def fieldText (n : SyntaxNode) (field : String) : String :=
  ((n.inField? field).map text).getD ""

end SyntaxNode

/-! ## Outlines -/

/-- A definition. -/
structure Entity where
  id : String
  kind : String
  name : String
  startLine : Int
  endLine : Int
  parentId : Option String := none
deriving Inhabited

/-- An import. -/
structure ImportLine where
  source : String
  specifiers : List String := []
  isDefault : Bool := false
  line : Int := 0
deriving Inhabited

/-- An export. -/
structure ExportLine where
  name : String
  isDefault : Bool := false
  line : Int := 0
deriving Inhabited

/-- What is noted of a file. -/
structure Outline where
  path : String
  language : String
  entities : List Entity := []
  imports : List ImportLine := []
  exports : List ExportLine := []
deriving Inhabited

/-- The definition as a record. -/
def Entity.record (e : Entity) : Json :=
  .record
    [("id", .str e.id), ("type", .str e.kind), ("name", .str e.name),
      ("start_line", .int e.startLine), ("end_line", .int e.endLine),
      ("parent_id", .ofOption .str e.parentId)]

/-- The import as a record. -/
def ImportLine.record (i : ImportLine) : Json :=
  .record
    [("source", .str i.source), ("specifiers", .strs i.specifiers),
      ("is_default", .bool i.isDefault), ("line", .int i.line)]

/-- The export as a record. -/
def ExportLine.record (e : ExportLine) : Json :=
  .record [("name", .str e.name), ("is_default", .bool e.isDefault), ("line", .int e.line)]

/-- The outline as a record. -/
def Outline.record (o : Outline) : Json :=
  .record
    [("path", .str o.path), ("language", .str o.language),
      ("entities", .arr (o.entities.map Entity.record)),
      ("imports", .arr (o.imports.map ImportLine.record)),
      ("exports", .arr (o.exports.map ExportLine.record))]

/-- Names joined with points. -/
def dotted (names : List String) : String := Text.joinWith "." names

namespace Outline

/-- The last definition of a name. -/
def latest? (o : Outline) (qualified : String) : Option String :=
  (o.entities.reverse.find? fun e => Text.endsWith e.id (":" ++ qualified)).map (·.id)

/-- A definition inside those of `scope` entered, if it has a name. -/
def enter (o : Outline) (kind name : String) (lines : SyntaxLabel) (scope : List String) :
    Outline :=
  if name.isEmpty then o
  else
    { o with entities := o.entities ++
        [{ id := kind ++ ":" ++ dotted (scope ++ [name])
           kind := kind
           name := name
           startLine := lines.startLine
           endLine := lines.endLine
           parentId := if scope.isEmpty then none else o.latest? (dotted scope) }] }

/-- Imports noted. -/
def addImports (o : Outline) (imports : List ImportLine) : Outline :=
  { o with imports := o.imports ++ imports }

/-- Exports noted. -/
def addExports (o : Outline) (exports : List ExportLine) : Outline :=
  { o with exports := o.exports ++ exports }

end Outline

/-- The definitions around a place. -/
structure Nesting where
  scope : List String := []
  inClass : Bool := false

/-- One definition further inside. -/
def Nesting.inside (n : Nesting) (name : String) (isClass : Bool) : Nesting where
  scope := n.scope ++ [name]
  inClass := isClass

/-- The language of an extension. -/
def languageOf? (extension : String) : Option String :=
  match extension with
  | ".py" => some "python"
  | ".js" | ".jsx" => some "javascript"
  | ".ts" | ".tsx" => some "typescript"
  | _ => none

/-- The text of a literal without blanks and quotes around it. -/
def unquote (literal : String) : String :=
  let isQuote := fun c => c == '\'' || c == '"' || c == (Char.ofNat 96)
  String.ofList (Text.trimBy isQuote (Text.trim literal).toList)

end CodeAtlas
