import CodeAtlas.Assembly.Options
import CodeAtlas.Graph.Draft

/-!
# The graph of a repository

The source files below a root are outlined and joined into a graph, which knowledge may add to.
-/

namespace CodeAtlas

/-! ## Paths of imports

A relative import is resolved against the folder of its file; a bare one, if that is asked for,
against the repository. -/

/-- One more part of a path, the parts before it reversed; two dots undo the last. -/
def addPart (absolute : Bool) (before : List String) (part : String) : List String :=
  if part == "" || part == "." then before
  else if part == ".." then
    match before with
    | [] => if absolute then [] else [".."]
    | last :: rest => if last == ".." then ".." :: before else rest
  else part :: before

/-- The parts without dots. -/
def normalParts (absolute : Bool) (parts : List String) : List String :=
  (parts.foldl (addPart absolute) []).reverse

/-- The path without dots. -/
def normalPath (path : String) : String :=
  let slashes := (path.toList.takeWhile (· == '/')).length
  let root := if slashes = 0 then "" else if slashes = 2 then "//" else "/"
  let text := root ++ Text.joinWith "/" (normalParts (slashes != 0) (Text.splitOn '/' path))
  if text.isEmpty then "." else text

/-- The folder of a path. -/
def folderOf (path : String) : String :=
  let head := (path.toList.reverse.dropWhile (· != '/')).reverse
  if head.all (· == '/') then String.ofList head
  else Text.dropTrailing (· == '/') (String.ofList head)

/-- The name at the end of a path. -/
def fileNameOf (path : String) : String :=
  String.ofList (path.toList.reverse.takeWhile (· != '/')).reverse

/-- A path below a folder. -/
def joinPaths (folder path : String) : String :=
  if folder.isEmpty || Text.endsWith folder "/" then folder ++ path else folder ++ "/" ++ path

/-- What may be added to a path, in the order of trial. -/
def importEndings : List String :=
  ["", ".ts", ".tsx", ".js", ".jsx", ".py", "/index.ts", "/index.js", "/__init__.py"]

/-- The first path with an ending that has an outline. -/
def withEnding? (outlines : Table String Outline) (path : String) : Option String :=
  (importEndings.map (path ++ ·)).find? outlines.has

/-- The import starts with dots. -/
def isRelativeImport (source : String) : Bool :=
  Text.startsWith source "./" || Text.startsWith source "../"

/-- The path that a bare import may mean; in Python dots divide folders. -/
def barePath (language source : String) : String :=
  let path := if language == "python" then Text.replaceChar '.' '/' source else source
  Text.dropLeading (· == '/') (Text.dropTrailing (· == '/') path)

/-- The file that an import means, if any. -/
def resolveImport (outlines : Table String Outline) (fromFile source : String) (external : Bool) :
    Option String :=
  if isRelativeImport source then
    withEnding? outlines (normalPath (joinPaths (folderOf fromFile) source))
  else if !external || source.isEmpty || Text.startsWith source "." then none
  else
    let language := ((outlines.get? fromFile).map (·.language)).getD ""
    withEnding? outlines (barePath language source)

/-! ## Parts of a repository's graph -/

/-- The path seen from the repository, as it is if it leads elsewhere. -/
def Workspace.relative (w : Workspace) (repo path : Path) : Except BuildError String :=
  match w.resolve path with
  | .ok resolved => .ok ((resolved.relativeTo? repo).getD path).text
  | .error .nullCharacter => .ok path.text
  | .error _ => .error .lostPath

/-- The weight of an outline: functions one, classes two, imports a half. -/
def complexityOf {K : Type} [Arith K] (o : Outline) : K :=
  let functions := o.entities.countP fun e => e.kind == "function" || e.kind == "method"
  let classes := o.entities.countP (·.kind == "class")
  Arith.round 1 (Arith.nat (functions + 2 * classes) + Arith.nat o.imports.length * Arith.ratio 1 2)

/-- The graph and the names found so far. -/
structure Assembly where
  outlines : Table String Outline := []
  fileIds : Table String String := []
  /-- The ids of the nodes of symbols, by file and name. -/
  symbolIds : Table (String × String) String := []
  draft : Draft := {}

namespace Assembly

/-- The outline of a file put under its path, if it has one. -/
def addOutline (w : Workspace) (repo : Path) (outlines : Table String Outline) (file : Path) :
    Except BuildError (Table String Outline) :=
  match w.outline file.text with
  | .ok (some o) => do return outlines.put (← w.relative repo file) o
  | _ => .ok outlines

/-- An assembly of the outlines only. -/
def outlined (w : Workspace) (repo : Path) (files : List Path) : Except BuildError Assembly := do
  return { outlines := ← files.foldlM (addOutline w repo) [] }

/-! ## Nodes -/

/-- The node of a file. -/
def fileNode (path : String) (o : Outline) : Node where
  id := nodeId "file" path
  kind := "file"
  name := fileNameOf path
  path := path
  language := some o.language
  metrics :=
    { complexity := .real (complexityOf o)
      linesOfCode :=
        some (.whole ((o.entities.map fun e => e.endLine - e.startLine + 1).foldr (· + ·) 0)) }

/-- One file added. -/
def addFile (a : Assembly) (path : String) (o : Outline) : Assembly :=
  { a with
    fileIds := a.fileIds.put path (nodeId "file" path)
    draft := a.draft.addNode (fileNode path o) }

/-- All files added, if they are wanted. -/
def addFiles (a : Assembly) (f : GraphFilter) : Assembly :=
  if f.nodeKinds.contains "file" || f.nodeKinds.contains "module" then
    a.outlines.foldl (fun a (path, o) => a.addFile path o) a
  else a

/-- The name of a definition with those around it. -/
def qualifiedName (e : Entity) : String :=
  let rest := match (Text.splitOn ':' e.id).drop 1 with
    | [] => e.id
    | parts => Text.joinWith ":" parts
  if rest.isEmpty then e.name else rest

/-- The id of the node of a definition. -/
def symbolId (path : String) (e : Entity) : String :=
  nodeId (symbolKind e.kind) (path ++ ":" ++ qualifiedName e)

/-- The node of a definition. -/
def symbolNode (path language : String) (fileId : Option String) (e : Entity) : Node where
  id := symbolId path e
  kind := symbolKind e.kind
  name := e.name
  path := path
  startLine := some e.startLine
  endLine := some e.endLine
  language := some language
  parentId := fileId
  metrics :=
    { complexity := .whole (e.endLine - e.startLine)
      linesOfCode := some (.whole (e.endLine - e.startLine + 1)) }

/-- A definition added: found by the first bare and the last qualified name. -/
def addSymbol (f : GraphFilter) (path : String) (o : Outline) (a : Assembly) (e : Entity) :
    Assembly :=
  if f.nodeKinds.contains (symbolKind e.kind) then
    let fileId := a.fileIds.get? path
    let id := symbolId path e
    let draft := a.draft.addNode (symbolNode path o.language fileId e)
    { a with
      symbolIds := (a.symbolIds.keep (path, e.name) id).put (path, qualifiedName e) id
      draft :=
        match fileId with
        | some fileId =>
          if f.edgeKinds.contains containment then
            draft.addEdge (Edge.between fileId id containment)
          else draft
        | none => draft }
  else a

/-- All definitions added, if symbols are wanted. -/
def addSymbols (a : Assembly) (f : GraphFilter) : Assembly :=
  if f.nodeKinds.any fun kind => kind != "file" && kind != "module" then
    a.outlines.foldl (fun a (path, o) => o.entities.foldl (addSymbol f path o) a) a
  else a

/-! ## Imports -/

/-- An import of a file added, if it means another file. -/
def addImport (external : Bool) (path sourceId : String) (a : Assembly) (i : ImportLine) :
    Assembly :=
  match (resolveImport a.outlines path i.source external).bind a.fileIds.get? with
  | some targetId =>
    if targetId != sourceId then
      { a with draft :=
          a.draft.addEdge (Edge.between sourceId targetId "imports" (.real 1) (some i.line)) }
    else a
  | none => a

/-- The edges of imports added, if they are wanted. -/
def addImports (a : Assembly) (options : BuildOptions) : Assembly :=
  if options.filter.edgeKinds.contains "imports" then
    a.outlines.foldl
      (fun a (path, o) =>
        match a.fileIds.get? path with
        | some sourceId => o.imports.foldl (addImport options.external path sourceId) a
        | none => a)
      a
  else a

/-! ## Knowledge -/

/-- The file that a detail of a hit names. -/
def fileNamed (w : Workspace) (repo : Path) (a : Assembly) (value : Option Json) :
    Except BuildError (Option String) :=
  match value.bind Json.filledStr? with
  | none => .ok none
  | some s =>
    if a.fileIds.has s then .ok (some s)
    else if (Path.ofText s).isAbsolute then do
      let relative ← w.relative repo (Path.ofText s)
      return if a.fileIds.has relative then some relative else none
    else .ok none

/-- The node that an end of a relation means. -/
def endpoint (w : Workspace) (repo : Path) (a : Assembly) (file symbol : Option Json) :
    Except BuildError (Option String) := do
  match ← fileNamed w repo a file with
  | none => return none
  | some path =>
    let named := (symbol.bind Json.filledStr?).bind fun s => a.symbolIds.get? (path, s)
    return (named.filter a.draft.has).or (a.fileIds.get? path)

/-- The edge that a hit reports, if its ends are known and its kind is wanted. -/
def reportedEdge? (w : Workspace) (repo : Path) (f : GraphFilter) (a : Assembly) (hit : Hit) :
    Except BuildError (Option Edge) :=
  match (hit.detail? "relationship_type").bind Json.filledStr? with
  | none => .ok none
  | some name => do
    let source ← endpoint w repo a (hit.detail? "source_file") (hit.detail? "source_symbol")
    let target ← endpoint w repo a (hit.detail? "target_file") (hit.detail? "target_symbol")
    return match source, target with
      | some source, some target =>
        if f.edgeKinds.contains (relationKind name) then
          some (Edge.between source target (relationKind name) hit.score)
        else none
      | _, _ => none

/-- A reported edge added. -/
def addReported (a : Assembly) : Option Edge → Except BuildError Assembly
  | none => .ok a
  | some e =>
    match a.draft.tryAddEdge e with
    | .ok draft => .ok { a with draft := draft }
    | .error fault => .error (.number fault)

/-- The frequency of change that a hit reports, with the id of its file. -/
def reportedFrequency? (w : Workspace) (repo : Path) (a : Assembly) (hit : Hit) :
    Except BuildError (Option (String × Amount)) := do
  let file ← fileNamed w repo a (hit.detail? "file_path")
  return match file.bind a.fileIds.get?, (hit.detail? "change_frequency").bind Json.amount? with
    | some id, some frequency => if frequency.isZero then none else some (id, frequency)
    | _, _ => none

/-- A reported frequency noted. -/
def withFrequency (a : Assembly) : Option (String × Amount) → Assembly
  | none => a
  | some (id, frequency) =>
    { a with draft := a.draft.changeNode id fun n =>
        { n with metrics := { n.metrics with changeFrequency := frequency } } }

/-- The frequency of a hit noted. -/
def noteFrequency (w : Workspace) (repo : Path) (a : Assembly) (hit : Hit) :
    Except BuildError Assembly :=
  a.withFrequency <$> reportedFrequency? w repo a hit

/-- All that a hit reports. -/
def addHit (w : Workspace) (repo : Path) (f : GraphFilter) (a : Assembly) (hit : Hit) :
    Except BuildError Assembly := do
  noteFrequency w repo (← addReported a (← reportedEdge? w repo f a hit)) hit

end Assembly

/-! ## The graph of a repository

A file that cannot be read is skipped, and so is knowledge that cannot be had; a root that is not
there, a path that leads nowhere and a number that cannot be computed stop the build. -/

/-- The frame of the layout. -/
def buildFrame : Frame Amount := { Frame.usual with width := .whole 1600, height := .whole 1200 }

/-- A graph, and what was searched for it. -/
structure BuildResult where
  graph : Except BuildError Graph
  searches : List Search

/-- The nodes and edges that the files tell. -/
def assemble (w : Workspace) (repo : Path) (options : BuildOptions) (files : List Path) :
    Except BuildError Assembly := do
  let a ← Assembly.outlined w repo files
  return ((a.addFiles options.filter).addSymbols options.filter).addImports options

/-- What knowledge reports added. -/
def enrich (w : Workspace) (repo : Path) (options : BuildOptions)
    (found : Except SearchFault (List Hit)) (a : Assembly) : Except BuildError (Assembly × Bool) :=
  match found with
  | .error _ => .ok (a, false)
  | .ok hits => do return (← hits.foldlM (Assembly.addHit w repo options.filter) a, true)

/-- The assembly as a graph, scored, filtered and laid out. -/
def finish (options : BuildOptions) (now : String) (a : Assembly) (rootId : Option String)
    (discovered : Nat) (enriched : Bool) : Except BuildError Graph :=
  let g := (a.draft.graph now).scored.filtered options.filter
  match g.laidOut (.ofName options.layout) buildFrame rootId with
  | .error fault => .error (.number fault)
  | .ok placed =>
    .ok { placed with metadata :=
      { placed.metadata with
        rootFile := some options.rootFile
        filesDiscovered := discovered
        filesParsed := a.outlines.length
        filesSkipped := (discovered : Int) - a.outlines.length
        enrichmentApplied := enriched } }

/-- The node of the root, if it is a file. -/
def rootIdOf (w : Workspace) (repo root : Path) (a : Assembly) :
    Except BuildError (Option String) := do
  if w.isFile root then return a.fileIds.get? (← w.relative repo root) else return none

/-- The graph of a repository, given what was found. -/
def buildFrom (w : Workspace) (repo root : Path) (found : Except SearchFault (List Hit))
    (options : BuildOptions) (now : String) : Except BuildError Graph := do
  let files := w.discover root repo options.discovery
  let a ← assemble w repo options files
  let (a, enriched) ← enrich w repo options found a
  finish options now a (← rootIdOf w repo root a) files.length enriched

/-- The graph of a repository. -/
def Workspace.buildGraph (w : Workspace) (repo : Path) (knowledge : KnowledgeSource)
    (options : BuildOptions) (now : String) : BuildResult :=
  match w.rootAt? repo options.rootFile with
  | .error fault => ⟨.error (.ofRoot fault), []⟩
  | .ok none => ⟨.error (.rootNotFound options.rootFile), []⟩
  | .ok (some root) =>
    ⟨buildFrom w repo root (knowledge options.search) options now, [options.search]⟩

end CodeAtlas
