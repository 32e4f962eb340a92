import CodeAtlas.Assembly.Build
import CodeAtlas.Text.Pattern

/-!
# The spread of a change

Where a symbol is used, and which files a change of it reaches.
-/

namespace CodeAtlas

/-! ## Usages -/

/-- A line that uses a symbol. -/
structure Usage where
  file : String
  line : Int
  context : String
  kind : String
deriving Inhabited

/-- The usage as a record. -/
def Usage.record (u : Usage) : Json :=
  .record
    [("file_path", .str u.file), ("line", .int u.line), ("context", .str u.context),
      ("usage_type", .str u.kind)]

/-- The line before the first comment mark of either kind. -/
def withoutComment (line : String) : String := Text.upTo "#" (Text.upTo "//" line)

section

open Text

/-- Any characters. -/
def anything : Pattern := [.many (· != '\n')]

/-- Any blanks. -/
def maybeBlanks : Pattern := [.many isBlank]

/-- The ways in which a line can use a symbol. -/
def usagePatterns (symbol : String) : List Pattern :=
  let s := Pattern.literal symbol
  [[.edge] ++ s ++ maybeBlanks ++ Pattern.literal "(",
    [.edge] ++ s ++ maybeBlanks ++ Pattern.literal ".",
    [.edge] ++ Pattern.literal "class" ++ Pattern.blanks ++ Pattern.word ++ Pattern.blanks ++
      Pattern.literal "extends" ++ Pattern.blanks ++ s,
    [.edge] ++ Pattern.literal "import" ++ Pattern.blanks ++ anything ++ s,
    [.edge] ++ Pattern.literal "from" ++ Pattern.blanks ++ anything ++ s,
    [.edge] ++ s ++ [.edge]]

/-- The code uses the symbol. -/
def usesSymbol (code symbol : String) : Bool :=
  (usagePatterns symbol).any (Pattern.occursIn · code)

/-- A word with blanks behind it. -/
def keyword (word : String) : Pattern := [.edge] ++ Pattern.literal word ++ Pattern.blanks

/-- A class that extends the symbol. -/
def basePattern (symbol : String) : Pattern :=
  [.edge] ++ Pattern.literal "class" ++ Pattern.blanks ++ Pattern.word ++ maybeBlanks ++
    Pattern.literal "(" ++ [.many (· != ')'), .edge] ++ Pattern.literal symbol ++ [.edge]

/-- What the symbol is used for. -/
def usageKind (code symbol : String) : String :=
  if (keyword "import").occursIn code || (keyword "from").occursIn code then "import"
  else if (keyword "extends").occursIn code || (keyword "implements").occursIn code ||
      (basePattern symbol).occursIn code then "inheritance"
  else if (Pattern.literal symbol ++ maybeBlanks ++ Pattern.literal "(").occursIn code then "call"
  else "reference"

end

/-- The usages among lines, counted from `number` on, behind `before`. -/
def usagesFrom (file symbol : String) (before : List String) (number : Nat) :
    List String → List Usage
  | [] => []
  | line :: rest =>
    let code := withoutComment line
    let found :=
      if usesSymbol code symbol then
        [{ file := file
           line := number
           context := Text.joinWith "\n" (before ++ line :: rest.take 1)
           kind := usageKind code symbol }]
      else []
    found ++ usagesFrom file symbol [line] (number + 1) rest

/-- The usages in a text. -/
def usagesInText (file text symbol : String) : List Usage :=
  usagesFrom file symbol [] 1 (Text.linesOf text)

/-- The usages of a symbol in one file; none if it cannot be read. -/
def Workspace.usagesInFile (w : Workspace) (repo : Path) (symbol : String) (path : Path) :
    Except BuildError (List Usage) := do
  let file ← w.relative repo path
  match w.file path with
  | .ok f => return (f.text.map (usagesInText file · symbol)).getD []
  | .error _ => return []

/-- The usages in a repository. -/
def Workspace.usages (w : Workspace) (repo : Path) (symbol : String) (scope : Option String) :
    Except BuildError (List Usage) := do
  match w.sourceFiles repo scope with
  | .error fault => throw (.ofRoot fault)
  | .ok files => return (← files.mapM (w.usagesInFile repo symbol)).flatten

/-! ## The spread of a change

From the files next to a change it spreads two steps further: to those that use the symbol by which
a file is affected, once for each file. -/

/-- A file that a change reaches. -/
structure Affected where
  symbol : String
  file : String
  depth : Nat
  /-- What tells the entries of one file and depth apart. -/
  tag : String
  usages : List Usage
deriving Inhabited

/-- A use that a knowledge source reports. -/
structure ReportedUse where
  user : String
  file : String
  relation : String
deriving Inhabited

/-- The entry is of a file and tag. -/
def Affected.isOf (a : Affected) (file tag : String) : Bool := a.file == file && a.tag == tag

/-- The usage noted under its file and tag. -/
def noteUsage (symbol : String) (depth : Nat) (tag : String) (found : List Affected) (u : Usage) :
    List Affected :=
  if found.any (·.isOf u.file tag) then
    found.map fun a => if a.isOf u.file tag then { a with usages := a.usages ++ [u] } else a
  else found ++ [⟨symbol, u.file, depth, tag, [u]⟩]

/-- The files next to a change. -/
def directlyAffected (symbol : String) (usages : List Usage) : List Affected :=
  usages.foldl (fun found u => noteUsage symbol 1 u.kind found u) []

/-- The reported use as a usage. -/
def ReportedUse.usage (r : ReportedUse) : Usage where
  file := r.file
  line := 0
  context := r.relation ++ " relationship from knowledge source"
  kind := if r.relation == "CALLED_BY" then "call" else "import"

/-- The reported use noted, unless its file and relation are there. -/
def noteReported (found : List Affected) (r : ReportedUse) : List Affected :=
  if found.any (·.isOf r.file r.relation) then found
  else found ++ [⟨r.user, r.file, 1, r.relation, [r.usage]⟩]

/-- What is next to a change, with what is reported. -/
def firstAffected (symbol : String) (usages : List Usage) (reported : List ReportedUse) :
    List Affected :=
  reported.foldl noteReported (directlyAffected symbol usages)

/-- The first entry of each file. -/
def onePerFile : List Affected → List Affected
  | [] => []
  | a :: rest => a :: (onePerFile rest).filter (·.file != a.file)

/-- The files one step further. -/
def spreadFrom (usagesOf : String → List Usage) (root : String) (depth : Nat)
    (reached : List Affected) : List Affected :=
  (onePerFile reached).foldl
    (fun found a =>
      ((usagesOf a.symbol).filter fun u => u.file != root && u.file != a.file).foldl
        (noteUsage a.symbol depth "") found)
    []

/-- The files that a change reaches. -/
def allAffected (usagesOf : String → List Usage) (root symbol : String) (usages : List Usage)
    (reported : List ReportedUse) : List Affected :=
  let first := firstAffected symbol usages reported
  let second := spreadFrom usagesOf root 2 first
  let third := spreadFrom usagesOf root 3 second
  first ++ second ++ third

end CodeAtlas
