import CodeAtlas.Files.Workspace
import CodeAtlas.Source.Python
import CodeAtlas.Source.Script

/-!
# Discovery and outlines of source files

A root is searched folder by folder: the source files of a folder in the order of their names, then
the folders in it in the same order. Links to folders are not entered. Parts of paths can be
excluded, together with all below them, or asked for.
-/

namespace CodeAtlas

/-! ## Discovery of source files -/

/-- Which files are looked for. -/
structure Discovery where
  excluded : List String := []
  /-- Parts of paths of which a file has to hold one, if any are given. -/
  included : List String := []
  extensions : List String := [".ts", ".tsx", ".js", ".jsx", ".py", ".go", ".rs", ".java"]
  ignored : List String :=
    ["node_modules", "dist", "build", ".git", "target", "__pycache__", ".next", "vendor", ".venv",
      "venv", ".tox", ".pytest_cache", ".mypy_cache"]

namespace Discovery

/-- The path holds a part that is excluded. -/
def excludes (d : Discovery) (relative : String) : Bool :=
  (d.excluded.filter (!·.isEmpty)).any (Text.hasPart relative ·)

/-- The path holds a part that is asked for, if any is. -/
def includes (d : Discovery) (relative : String) : Bool :=
  let parts := d.included.filter (!·.isEmpty)
  parts.isEmpty || parts.any (Text.hasPart relative ·)

/-- The entry is a source file to be listed. -/
def lists (d : Discovery) (w : Workspace) (repo path : Path) (e : Entry) : Bool :=
  let isFile := match e with
    | .file _ => true
    | .link _ => w.isFile path
    | .folder _ => false
  isFile && d.extensions.contains path.extension && d.includes (path.under repo)

/-- The source files of a folder. -/
def filesIn (d : Discovery) (w : Workspace) (repo folder : Path)
    (entries : List (String × Entry)) : List Path :=
  entries.filterMap fun (name, e) =>
    let path := folder.child name
    if !d.excludes (path.under repo) && d.lists w repo path e then some path else none

/-- The folder at an entry, if it is searched. -/
def folderAt? (d : Discovery) (repo folder : Path) (entry : String × Entry) :
    Option (Path × List (String × Entry)) :=
  match entry.2 with
  | .folder entries =>
    let path := folder.child entry.1
    if !d.excludes (path.under repo) && !d.ignored.contains entry.1 then some (path, entries)
    else none
  | _ => none

/-- The entries in the order of their names. -/
def byName (entries : List (String × Entry)) : List (String × Entry) :=
  entries.mergeSort fun a b => decide (a.1 ≤ b.1)

theorem byName_perm (entries : List (String × Entry)) : (byName entries).Perm entries :=
  List.mergeSort_perm entries _

/-- The weight of what is left to be walked. -/
def stackWeight : List (Path × List (String × Entry)) → Nat
  | [] => 0
  | (_, entries) :: rest => 1 + Entry.weightOf entries + stackWeight rest

theorem stackWeight_append (xs ys : List (Path × List (String × Entry))) :
    stackWeight (xs ++ ys) = stackWeight xs + stackWeight ys := by
  induction xs with
  | nil => simp [stackWeight]
  | cons x xs ih =>
    rw [List.cons_append, stackWeight, stackWeight, ih]
    omega

theorem weightOf_perm {xs ys : List (String × Entry)} (h : xs.Perm ys) :
    Entry.weightOf xs = Entry.weightOf ys := by
  induction h with
  | nil => rfl
  | cons x _ ih => simp only [Entry.weightOf, ih]
  | swap x y xs => simp only [Entry.weightOf]; omega
  | trans _ _ ih₁ ih₂ => exact ih₁.trans ih₂

/-- The folders to be entered weigh no more than the entries of which they are some. -/
theorem stackWeight_filterMap_le (d : Discovery) (repo folder : Path)
    (entries : List (String × Entry)) :
    stackWeight (entries.filterMap (d.folderAt? repo folder)) ≤ Entry.weightOf entries := by
  induction entries with
  | nil => simp [stackWeight]
  | cons x xs ih =>
    obtain ⟨name, e⟩ := x
    cases e with
    | file f =>
      rw [List.filterMap_cons_none (by rfl)]
      simpa [Entry.weightOf, Entry.weight] using ih
    | link t =>
      rw [List.filterMap_cons_none (by rfl)]
      simpa [Entry.weightOf, Entry.weight] using ih
    | folder es =>
      simp only [List.filterMap_cons, folderAt?, Entry.weightOf, Entry.weight]
      split
      · omega
      · rename_i h
        split at h
        · simp only [Option.some.injEq] at h
          subst h
          simp only [stackWeight] at ih ⊢
          omega
        · simp at h

/-- The files of the folders on the stack, each folder before those in it. -/
def walk (d : Discovery) (w : Workspace) (repo : Path)
    (stack : List (Path × List (String × Entry))) : List Path :=
  match stack with
  | [] => []
  | (folder, entries) :: rest =>
    let sorted := byName entries
    d.filesIn w repo folder sorted ++
      d.walk w repo (sorted.filterMap (d.folderAt? repo folder) ++ rest)
termination_by stackWeight stack
decreasing_by
  have h := stackWeight_filterMap_le d repo folder (byName entries)
  rw [weightOf_perm (byName_perm entries)] at h
  rw [stackWeight_append, stackWeight]
  omega

end Discovery

/-- Why a root cannot be looked for. -/
inductive RootFault where
  /-- A path starts in a home folder that is not known. -/
  | unknownHome
  /-- Links lead in a circle. -/
  | linkLoop
  | nameTooLong
deriving DecidableEq

/-- The path with `~` and a user's name at its start replaced by that user's home. -/
def Path.expanded (p : Path) (homes : String → Option Path) : Except RootFault Path :=
  match p.root, p.parts with
  | "", part :: rest =>
    match part.toList with
    | '~' :: user =>
      match homes (String.ofList user) with
      | some home => .ok { home with parts := home.parts ++ rest }
      | none => .error .unknownHome
    | _ => .ok p
  | _, _ => .ok p

namespace Workspace

/-- The file or folder that a text means, seen from a folder. -/
def rootAt? (w : Workspace) (repo : Path) (root : String) : Except RootFault (Option Path) := do
  let path := repo.join (← (Path.ofText root).expanded w.homes)
  match w.probe path with
  | .error _ => throw .nameTooLong
  | .ok none => return none
  | .ok (some _) =>
    match w.resolve path with
    | .ok resolved => return some resolved
    | .error _ => throw .linkLoop

/-- The source files below a root. -/
def discover (w : Workspace) (root repo : Path) (d : Discovery) : List Path :=
  match w.entry root with
  | .ok (.file _) => [root]
  | .ok (.folder entries) => d.walk w repo [(root, entries)]
  | _ => []

/-- The files below a root as it is given; some cannot even be looked for. -/
def discoverAt (w : Workspace) (root repo : Path) (d : Discovery) :
    Except FileFault (List Path) :=
  match w.entry root with
  | .error .nameTooLong => .error .nameTooLong
  | .error .nullCharacter => .error .nullCharacter
  | _ => .ok (w.discover root repo d)

/-- The source files of a repository. -/
def sourceFiles (w : Workspace) (repo : Path) (scope : Option String) :
    Except RootFault (List Path) :=
  match scope.filter (!·.isEmpty) with
  | none => .ok (w.discover repo repo {})
  | some scope => do
    match ← w.rootAt? repo scope with
    | none => return []
    | some root => return w.discover root repo {}

end Workspace

/-! ## Outlines of files -/

/-- Why a file has no outline. -/
inductive ReadError where
  | unreadable (given : String) (fault : FileFault)
  | broken
deriving DecidableEq

/-- The error in words. -/
def ReadError.message : ReadError → String
  | .unreadable given fault =>
    "Cannot read " ++ given ++ ": " ++ fault.message (Path.ofText given)
  | .broken => ""

/-- The language of the file is known. -/
def isSupported (path : String) : Bool := (languageOf? (Path.ofText path).extension).isSome

/-- The outline of a file; none if its language is not known. -/
def Workspace.outline (w : Workspace) (given : String) : Except ReadError (Option Outline) :=
  let path := Path.ofText given
  match languageOf? path.extension with
  | none => .ok none
  | some language =>
    match w.file path with
    | .error fault => .error (.unreadable given fault)
    | .ok f =>
      match f.reading with
      | .broken => .error .broken
      | .ready outline => .ok (some { outline with path := given })
      | .tree root =>
        .ok (some (if language == "python" then Python.outlineOf path.text root
          else Script.outlineOf path.text language root))

end CodeAtlas
