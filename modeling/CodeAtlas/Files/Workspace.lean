import CodeAtlas.Files.Entry
import CodeAtlas.Json.Writer

/-!
# Workspaces

A workspace is a file tree with a current folder. On the way of a path links are followed, but no
more than a set number of them, and names have a greatest length. Resolving a path is more patient:
it follows any number of links, keeps parts that are not there, and takes a link that leads back to
itself as a plain name.
-/

namespace CodeAtlas

/-- A file tree, the current folder, and the home folders of users. -/
structure Workspace where
  tree : Entry
  current : List String
  /-- The home folder of a user, if there is one; the empty name is the user's own. -/
  homes : String → Option Path
deriving Inhabited

/-- Why a path leads nowhere. -/
inductive FileFault where
  | missing
  | notFolder
  | isFolder
  | linkLoop
  | nameTooLong
  /-- The path holds a character that no name can hold. -/
  | nullCharacter
deriving DecidableEq

/-- The fault in words. -/
def FileFault.message (fault : FileFault) (path : Path) : String :=
  let reason := match fault with
    | .missing => "[Errno 2] No such file or directory"
    | .notFolder => "[Errno 20] Not a directory"
    | .isFolder => "[Errno 21] Is a directory"
    | .nameTooLong => "[Errno 36] File name too long"
    | .linkLoop => "[Errno 40] Too many levels of symbolic links"
    | .nullCharacter => "embedded null byte"
  reason ++ ": " ++ Json.Display.quoted path.text

/-! ## The way of a path -/

/-- The parts of a link's target; a slash at its end asks for a folder. -/
def linkParts (target : String) : List String :=
  (Text.splitOn '/' target).filter (· != "") ++ (if Text.endsWith target "/" then [""] else [])

/-- How many links are followed. -/
def linkBudget : Nat := 40

/-- How many bytes a name may have. -/
def nameLimit : Nat := 255

/-- How many bytes a path may have. -/
def pathLimit : Nat := 4096

/-- The names that parts lead to from `here`; if `creating`, the last may be missing. -/
def follow (tree : Entry) (creating : Bool) (links : Nat) (here parts : List String) :
    Except FileFault (List String) :=
  match parts with
  | [] => .ok here
  | part :: rest =>
    if part = "" ∨ part = "." then follow tree creating links here rest
    else if part = ".." then follow tree creating links here.dropLast rest
    else if creating ∧ rest = [""] then .error .isFolder
    else if nameLimit < part.utf8ByteSize then .error .nameTooLong
    else
      match tree.below? (here ++ [part]) with
      | some (.folder _) => follow tree creating links (here ++ [part]) rest
      | some (.link target) =>
        match links with
        | 0 => .error .linkLoop
        | links + 1 =>
          let start := if Text.startsWith target "/" then [] else here
          follow tree creating links start (linkParts target ++ rest)
      | some (.file _) => if rest.isEmpty then .ok (here ++ [part]) else .error .notFolder
      | none => if creating && rest.isEmpty then .ok (here ++ [part]) else .error .missing
termination_by (links, parts.length)

/-- A part of the path holds the null character. -/
def Path.hasNull (p : Path) : Bool := p.parts.any fun part => part.toList.contains (Char.ofNat 0)

namespace Workspace

/-- The names where a path starts. -/
def start (w : Workspace) (p : Path) : List String := if p.isAbsolute then [] else w.current

/-- The names that a path leads to; if `creating`, the last may be missing. -/
def locate (w : Workspace) (creating : Bool) (p : Path) : Except FileFault (List String) :=
  if p.hasNull then .error .nullCharacter
  else if pathLimit ≤ p.text.utf8ByteSize then .error .nameTooLong
  else follow w.tree creating linkBudget (w.start p) p.parts

/-- The entry that a path leads to. -/
def entry (w : Workspace) (p : Path) : Except FileFault Entry := do
  let names ← w.locate false p
  match w.tree.below? names with
  | some e => .ok e
  | none => .error .missing

/-- The entry that a path leads to, if any; a long name cannot even be looked for. -/
def probe (w : Workspace) (p : Path) : Except FileFault (Option Entry) :=
  match w.entry p with
  | .ok e => .ok (some e)
  | .error .nameTooLong => .error .nameTooLong
  | .error _ => .ok none

/-- The path leads to a file. -/
def isFile (w : Workspace) (p : Path) : Bool := w.entry p matches .ok (.file _)

/-- The file that a path leads to. -/
def file (w : Workspace) (p : Path) : Except FileFault SourceFile := do
  match ← w.entry p with
  | .file f => .ok f
  | _ => .error .isFolder

end Workspace

/-! ## Resolving -/

/-- What is left to do when a path is resolved. -/
inductive ResolutionStep where
  | part (name : String)
  /-- The link at these names has been followed to its end. -/
  | followed (link : List String)

/-- A path on its way to being resolved. -/
structure Resolution where
  here : List String
  todo : List ResolutionStep
  /-- The links met, with where they lead once that is known. -/
  met : Table (List String) (Option (List String)) := []

namespace Resolution

/-- The names that are left. -/
def left (todo : List ResolutionStep) : List String :=
  todo.filterMap fun
    | .part name => some name
    | .followed _ => none

/-- The names without dots, two dots taking back the name before them. -/
def plainNames (names : List String) : List String :=
  names.foldl
    (fun done name =>
      if name = "" ∨ name = "." then done
      else if name = ".." then done.dropLast
      else done ++ [name])
    []

/-- One part taken; a link that leads back to itself ends the resolving. -/
def take (tree : Entry) (r : Resolution) (name : String) (rest : List ResolutionStep) :
    Resolution :=
  if name = "" ∨ name = "." then { r with todo := rest }
  else if name = ".." then { r with here := r.here.dropLast, todo := rest }
  else
    let names := r.here ++ [name]
    match tree.below? names with
    | some (.link target) =>
      match r.met.get? names with
      | some (some path) => { r with here := path, todo := rest }
      | some none => { r with here := plainNames (names ++ left rest), todo := [] }
      | none =>
        { here := if Text.startsWith target "/" then [] else r.here
          todo := (linkParts target).map .part ++ .followed names :: rest
          met := r.met.put names none }
    | _ => { r with here := names, todo := rest }

/-- The names from the top at the end, after at most `fuel` steps. -/
def run (tree : Entry) : Nat → Resolution → List String
  | 0, r => r.here
  | fuel + 1, r =>
    match r.todo with
    | [] => r.here
    | .followed link :: rest =>
      run tree fuel { r with todo := rest, met := r.met.put link (some r.here) }
    | .part name :: rest => run tree fuel (r.take tree name rest)

end Resolution

mutual

/-- The steps that it takes to follow every link in a tree once. -/
def Entry.linkSteps : Entry → Nat
  | .file _ => 0
  | .link target => 1 + (linkParts target).length
  | .folder entries => Entry.linkStepsOf entries

/-- The steps of the links among entries. -/
def Entry.linkStepsOf : List (String × Entry) → Nat
  | [] => 0
  | (_, e) :: rest => e.linkSteps + Entry.linkStepsOf rest

end

namespace Workspace

/-- The names without links and dots; the links, each followed once, bound the fuel. -/
def resolvedNames (w : Workspace) (p : Path) : List String :=
  Resolution.run w.tree (p.parts.length + w.tree.linkSteps + 1)
    { here := w.start p, todo := p.parts.map .part }

/-- The path without links and dots; parts that are not there are kept. -/
def resolve (w : Workspace) (p : Path) : Except FileFault Path :=
  if p.hasNull then .error .nullCharacter
  else
    let resolved : Path := { root := "/", parts := w.resolvedNames p }
    match w.locate false resolved with
    | .error .linkLoop => .error .linkLoop
    | _ => .ok resolved

/-- The workspace after a text was written to a file in a folder that is there. -/
def write (w : Workspace) (p : Path) (text : String) : Except FileFault Workspace := do
  let names ← w.locate true p
  match w.tree.below? names with
  | some (.folder _) => .error .isFolder
  | _ => .ok { w with tree := w.tree.put names (.file (.plain text)) }

end Workspace

end CodeAtlas
