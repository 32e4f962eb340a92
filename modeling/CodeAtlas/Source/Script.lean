import CodeAtlas.Source.Outline

/-!
# Outlines of scripts

Scripts are searched in all their parts. Classes, functions, methods and interfaces are entered, and
so are functions that a variable is declared to be.
-/

namespace CodeAtlas

namespace Script

/-- The names of a clause. -/
def clauseNames (part : SyntaxNode) : List String :=
  if part.kind == "identifier" then [part.text]
  else if part.kind == "named_imports" then
    (part.namedChildren.filter (·.kind == "import_specifier")).map (·.fieldText "name")
  else if part.kind == "namespace_import" then
    (part.namedChildren.filter (·.kind == "identifier")).map (·.text)
  else []

/-- The import of a statement. -/
def importOf (n : SyntaxNode) : ImportLine :=
  let parts := (n.children.filter (·.kind == "import_clause")).flatMap (·.namedChildren)
  { source := unquote (n.fieldText "source")
    specifiers := parts.flatMap clauseNames
    isDefault := parts.any (·.kind == "identifier")
    line := n.label.startLine }

/-- The call brings in a module. -/
def bringsIn (function : SyntaxNode) : Bool :=
  function.kind == "import" || (function.kind == "identifier" && function.text == "require")

/-- The import of `require('s')` or `import('s')`, if the call is one. -/
def requireOf (n : SyntaxNode) : List ImportLine :=
  match n.inField? "function", n.inField? "arguments" with
  | some function, some arguments =>
    if bringsIn function then
      ((arguments.namedChildren.find? (·.kind == "string")).map fun s =>
        { source := unquote s.text, line := n.label.startLine }).toList
    else []
  | _, _ => []

/-- The import behind `export … from 's'`. -/
def reexportOf (n : SyntaxNode) : List ImportLine :=
  ((n.inField? "source").map fun s =>
    { source := unquote s.text, line := n.label.startLine }).toList

/-- The exports of a declaration. -/
def declaredExports (declaration : SyntaxNode) (isDefault : Bool) (line : Int) : List ExportLine :=
  match declaration.inField? "name" with
  | some name => [{ name := name.text, isDefault := isDefault, line := line }]
  | none =>
    (declaration.namedChildren.filter (·.kind == "variable_declarator")).map fun d =>
      { name := d.fieldText "name", isDefault := isDefault, line := line }

/-- The exports of a statement. -/
def exportsOf (n : SyntaxNode) : List ExportLine :=
  let isDefault := n.children.any (·.kind == "default")
  let line : Int := n.label.startLine
  match n.inField? "declaration" with
  | some declaration => declaredExports declaration isDefault line
  | none =>
    match n.namedChildren.find? (·.kind == "export_clause") with
    | some clause =>
      (clause.namedChildren.filter (·.kind == "export_specifier")).map fun s =>
        { name := s.fieldText "name", line := line }
    | none => if isDefault then [{ name := "default", isDefault := true, line := line }] else []

/-- The kinds of classes. -/
def classKinds : List String := ["class_declaration", "abstract_class_declaration"]

/-- The kinds of functions. -/
def functionKinds : List String := ["function_declaration", "generator_function_declaration"]

/-- The values that are functions. -/
def functionValues : List String :=
  ["arrow_function", "function_expression", "function", "generator_function"]

/-- Where the search goes on after a node was looked at. -/
inductive Onward where
  | stop
  /-- In the first child that fills the field. -/
  | field (name : String)
  | children

/-- What a node declares, and where the search goes on. -/
def declared? (here : Nesting) (n : SyntaxNode) : Option (String × String × Onward) :=
  let name := n.fieldText "name"
  if classKinds.contains n.kind then some ("class", name, .field "body")
  else if functionKinds.contains n.kind then some ("function", name, .children)
  else if n.kind == "method_definition" && here.inClass then some ("method", name, .children)
  else if n.kind == "interface_declaration" then some ("interface", name, .stop)
  else if n.kind == "variable_declarator" &&
      (n.inField? "value").any (functionValues.contains ·.kind) then
    some ("function", name, .field "value")
  else none

/-- The imports and exports of a node that is no declaration. -/
def enterOwn (n : SyntaxNode) (o : Outline) : Outline :=
  if n.kind == "import_statement" then o.addImports [importOf n]
  else if n.kind == "export_statement" then
    (o.addImports (reexportOf n)).addExports (exportsOf n)
  else if n.kind == "call_expression" then o.addImports (requireOf n)
  else o

mutual

/-- The node noted. -/
def enterNode (here : Nesting) : SyntaxNode → Outline → Outline
  | .mk label children, o =>
    let n : SyntaxNode := .mk label children
    match declared? here n with
    | some (kind, name, onward) =>
      let entered := o.enter kind name label here.scope
      let inside := here.inside name (kind == "class")
      match onward with
      | .stop => entered
      | .field field => enterField field inside children entered
      | .children => enterNodes inside children entered
    | none =>
      if label.kind == "import_statement" then enterOwn n o
      else enterNodes here children (enterOwn n o)

/-- The nodes noted. -/
def enterNodes (here : Nesting) : List SyntaxNode → Outline → Outline
  | [], o => o
  | n :: rest, o => enterNodes here rest (enterNode here n o)

/-- The parts in a field noted. -/
def enterField (field : String) (here : Nesting) : List SyntaxNode → Outline → Outline
  | [], o => o
  | n :: rest, o => if n.fills field then enterInside here n o else enterField field here rest o

/-- The parts of a node noted. -/
def enterInside (here : Nesting) : SyntaxNode → Outline → Outline
  | .mk _ children, o => enterNodes here children o

end

/-- The outline of a file. -/
def outlineOf (path language : String) (tree : SyntaxNode) : Outline :=
  enterInside {} tree { path := path, language := language }

end Script

end CodeAtlas
