import CodeAtlas.Source.Outline

/-!
# Outlines of Python files

Classes and functions are found in the statements of a file, in the branches of its compound
statements and in the bodies of other definitions. A decorated definition covers the lines of its
decorators too.
-/

namespace CodeAtlas

namespace Python

/-- The imports of `import a, b`. -/
def plainImports (n : SyntaxNode) : List ImportLine :=
  (n.allInField "name").map fun name =>
    let aliased := name.kind == "aliased_import"
    let target := if aliased then name.fieldText "name" else name.text
    let given := if aliased then name.fieldText "alias" else ""
    { source := target
      specifiers := [if given.isEmpty then (Text.splitOn '.' target).getLastD "" else given]
      line := n.label.startLine }

/-- The names of an import. -/
def importedNames (n : SyntaxNode) : List String :=
  let names := (n.allInField "name").map fun name =>
    if name.kind == "aliased_import" then name.fieldText "name" else name.text
  if n.children.any (·.kind == "wildcard_import") then names ++ ["*"] else names

/-- The path of leading dots, one folder up for each but the first. -/
def dotsPath (dots : Nat) : String :=
  if dots = 1 then "./" else String.ofList ((List.replicate (dots - 1) ['.', '.', '/']).flatten)

/-- The imports of `from m import a, b`, relative ones as paths; without a module each name is
one. -/
def fromImports (n : SyntaxNode) : List ImportLine :=
  let names := importedNames n
  let line : Int := n.label.startLine
  let parts := (n.fieldText "module_name").toList
  let dots := (parts.takeWhile (· == '.')).length
  if dots = 0 then [{ source := String.ofList parts, specifiers := names, line := line }]
  else
    let path := dotsPath dots
    let rest := Text.replaceChar '.' '/' (String.ofList (parts.drop dots))
    if rest.isEmpty then
      (names.filter (· != "*")).map fun name =>
        { source := path ++ name, specifiers := [name], line := line }
    else [{ source := path ++ rest, specifiers := names, line := line }]

/-- The statements with branches. -/
def compound : List String :=
  ["if_statement", "try_statement", "block", "else_clause", "except_clause", "finally_clause",
    "with_statement"]

/-- The kind and name of a definition, and the nesting inside it. -/
def definition? (here : Nesting) (n : SyntaxNode) : Option (String × String × Nesting) :=
  let name := n.fieldText "name"
  if n.kind == "class_definition" then some ("class", name, here.inside name true)
  else if n.kind == "function_definition" then
    some (if here.inClass then "method" else "function", name, here.inside name false)
  else none

mutual

/-- The statement noted. -/
def enterStatement (here : Nesting) : SyntaxNode → Outline → Outline
  | .mk label children, o =>
    match definition? here (.mk label children) with
    | some (kind, name, inside) =>
      enterBody inside children (o.enter kind name label here.scope)
    | none =>
      if label.kind == "decorated_definition" then enterDecorated here label children o
      else if label.kind == "import_statement" then
        o.addImports (plainImports (.mk label children))
      else if label.kind == "import_from_statement" then
        o.addImports (fromImports (.mk label children))
      else if compound.contains label.kind then enterStatements here children o
      else o

/-- The statements noted. -/
def enterStatements (here : Nesting) : List SyntaxNode → Outline → Outline
  | [], o => o
  | n :: rest, o => enterStatements here rest (enterStatement here n o)

/-- The bodies among parts noted. -/
def enterBody (here : Nesting) : List SyntaxNode → Outline → Outline
  | [], o => o
  | n :: rest, o => if n.fills "body" then enterInside here n o else enterBody here rest o

/-- The parts of a node noted. -/
def enterInside (here : Nesting) : SyntaxNode → Outline → Outline
  | .mk _ children, o => enterStatements here children o

/-- The decorated definition noted, with its lines. -/
def enterDecorated (here : Nesting) (lines : SyntaxLabel) : List SyntaxNode → Outline → Outline
  | [], o => o
  | n :: rest, o =>
    if n.fills "definition" then
      match definition? here n with
      | some (kind, name, inside) => enterBodyOf inside n (o.enter kind name lines here.scope)
      | none => o
    else enterDecorated here lines rest o

/-- The body of a node noted. -/
def enterBodyOf (here : Nesting) : SyntaxNode → Outline → Outline
  | .mk _ children, o => enterBody here children o

end

/-- The outline of a file. -/
def outlineOf (path : String) (tree : SyntaxNode) : Outline :=
  enterInside {} tree { path := path, language := "python" }

end Python

end CodeAtlas
