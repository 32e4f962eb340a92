import CodeAtlas.Files.Discovery
import CodeAtlas.Graph.Filter
import CodeAtlas.Knowledge.Client
import CodeAtlas.Layout.Basic

/-!
# Build options

* `BuildOptions`: what graph is wanted.
* `BuildError`: why there is none.
* `relationKind`, `symbolKind`: the kinds of edges and nodes in it.
-/

namespace CodeAtlas

/-! ## Build options -/

/-- What graph is wanted. -/
structure BuildOptions where
  rootFile : String
  depth : Int := 5
  /-- Bare imports are resolved against the repository. -/
  external : Bool := false
  layout : String := "force"
  filter : GraphFilter := {}

/-- The options as a record. -/
def BuildOptions.record (o : BuildOptions) : Json :=
  .record
    [("root_file", .str o.rootFile), ("depth", .int o.depth),
      ("include_external", .bool o.external),
      ("layout", .str o.layout), ("filters", o.filter.record)]

/-- Which files are looked for. -/
abbrev BuildOptions.discovery (o : BuildOptions) : Discovery where
  excluded := o.filter.excluded
  included := o.filter.included

/-- What a knowledge source is asked. -/
def BuildOptions.search (o : BuildOptions) : Search where
  query := "relationships between files and functions in " ++ o.rootFile
  limit := 100
  domain := some "code"

/-- Why there is no graph. -/
inductive BuildError where
  /-- The root is not there. -/
  | rootNotFound (root : String)
  /-- Links lead in a circle, or a home folder is not known. -/
  | lostPath
  /-- A name on the way is too long. -/
  | longName
  /-- A weight or a coordinate cannot be computed. -/
  | number (fault : NumberFault)
deriving DecidableEq

/-- The error in words. -/
def BuildError.message : BuildError → String
  | .rootNotFound root => "Failed to build dependency graph: root path not found: " ++ root
  | _ => ""

/-- The error of a root that cannot be reached. -/
def BuildError.ofRoot : RootFault → BuildError
  | .nameTooLong => .longName
  | _ => .lostPath

/-! ## Relations -/

/-- The names of relations, with the kinds of edges. -/
def relations : List (String × String) :=
  [("CALLS", "calls"), ("CALLED_BY", "calls"), ("IMPORTS", "imports"), ("IMPORTED_BY", "imports"),
    ("EXTENDS", "extends"), ("IMPLEMENTS", "implements"), ("CONTAINS", "contains"),
    ("REFERENCES", "references")]

/-- The kind of edge for a relation in letters of any case; a reference if unknown. -/
def relationKind (name : String) : String :=
  let capitals := String.ofList (name.toList.map Text.capital)
  ((relations.find? (·.1 == capitals)).map (·.2)).getD "references"

/-- The kind of node for a definition; a function if unknown. -/
def symbolKind (kind : String) : String :=
  if ["class", "function", "method", "interface", "variable"].contains kind then kind
  else "function"

end CodeAtlas
