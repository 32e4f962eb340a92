import CodeAtlas.Proofs.Assembly.FileNodes
import CodeAtlas.Proofs.Text.Part
import Mathlib.Data.List.TakeWhile
import Mathlib.Tactic.MkIffOfInductiveProp

/-!
# Relative imports

The dots in front of a Python module say how many folders up its path starts. A relative import is
noted as a path with dots, which is resolved against the folder of the file.

* **`Python.relative_imports_resolved`**: where they lead.
-/

namespace CodeAtlas

/-! ## Parts of paths -/

/-- A part of a path that means the entry of that name. -/
@[mk_iff]
structure PlainPart (part : String) : Prop where
  ne_empty : part ≠ ""
  ne_dot : part ≠ "."
  ne_dots : part ≠ ".."
  no_slash : '/' ∉ part.toList

instance (part : String) : Decidable (PlainPart part) :=
  decidable_of_iff' _ (plainPart_iff part)

/-- A name that can stand between the dots of a module, as all identifiers can. -/
@[mk_iff]
structure ImportName (name : String) : Prop where
  ne_empty : name ≠ ""
  no_dot : '.' ∉ name.toList
  no_slash : '/' ∉ name.toList

instance (name : String) : Decidable (ImportName name) :=
  decidable_of_iff' _ (importName_iff name)

theorem ImportName.plainPart {name : String} (h : ImportName name) : PlainPart name where
  ne_empty := h.ne_empty
  ne_dot := by
    rintro rfl
    exact h.no_dot (by decide)
  ne_dots := by
    rintro rfl
    exact h.no_dot (by decide)
  no_slash := h.no_slash

/-! ## The folder of a path -/

section Folder

variable {dirs : List String} {name : String}

theorem folderOf_joinWith (hdirs : ∀ d ∈ dirs, PlainPart d) (hname : '/' ∉ name.toList) :
    folderOf (Text.joinWith "/" (dirs ++ [name])) = Text.joinWith "/" dirs := by
  have hstop : ∀ c ∈ name.toList.reverse, (c != '/') = true := by
    intro c hc
    simp only [bne_iff_ne, ne_eq]
    rintro rfl
    exact hname (List.mem_reverse.mp hc)
  rcases List.eq_nil_or_concat' dirs with rfl | ⟨front, last, rfl⟩
  · have hhead : name.toList.reverse.dropWhile (· != '/') = [] :=
      List.dropWhile_eq_nil_iff.mpr hstop
    simp [folderOf, Text.joinWith, hhead]
  · have hlast : PlainPart last := hdirs last (by simp)
    obtain ⟨cs, c, hcs, hc⟩ := Text.exists_last hlast.ne_empty hlast.no_slash front
    have hhead : ((Text.joinWith "/" ((front ++ [last]) ++ [name])).toList.reverse.dropWhile
        (· != '/')).reverse = cs ++ [c] ++ ['/'] := by
      have hname' : Text.joinWith "/" [name] = name := by simp [Text.joinWith]
      rw [Text.joinWith_append (by simp) (by simp), hname', String.toList_append,
        String.toList_append, hcs, List.reverse_append, List.dropWhile_append_of_pos hstop]
      simp
    rw [folderOf, hhead, if_neg (by simp [hc])]
    -- the slash is dropped, and the part before it ends with none
    rw [← String.ofList_toList (s := Text.joinWith "/" (front ++ [last])), hcs]
    simp [Text.dropTrailing, hc]

theorem joinPaths_joinWith (hdirs : ∀ d ∈ dirs, PlainPart d) {parts : List String}
    (hparts : parts ≠ []) :
    joinPaths (Text.joinWith "/" dirs) (Text.joinWith "/" parts) =
      Text.joinWith "/" (dirs ++ parts) := by
  rcases List.eq_nil_or_concat' dirs with rfl | ⟨front, last, rfl⟩
  · simp [joinPaths, Text.joinWith]
  · have hlast : PlainPart last := hdirs last (by simp)
    obtain ⟨cs, c, hcs, hc⟩ := Text.exists_last hlast.ne_empty hlast.no_slash front
    have hempty : (Text.joinWith "/" (front ++ [last])).isEmpty = false :=
      Text.joinWith_isEmpty (by simp) hlast.ne_empty
    have hslash : Text.endsWith (Text.joinWith "/" (front ++ [last])) "/" = false := by
      rw [Text.endsWith, hcs]
      simp [List.isSuffixOf, List.isPrefixOf, Ne.symm hc]
    rw [joinPaths, hempty, hslash, Text.joinWith_append (by simp) hparts]
    rfl

end Folder

/-! ## Dots in paths -/

section Dots

variable {parts before : List String} {part : String}

theorem addPart_plain (absolute : Bool) (before : List String) (h : PlainPart part) :
    addPart absolute before part = part :: before := by
  simp [addPart, h.ne_empty, h.ne_dot, h.ne_dots]

theorem foldl_addPart_plain (absolute : Bool) (before : List String)
    (h : ∀ p ∈ parts, PlainPart p) :
    parts.foldl (addPart absolute) before = parts.reverse ++ before := by
  induction parts generalizing before with
  | nil => rfl
  | cons p rest ih =>
    rw [List.foldl_cons, addPart_plain absolute before (h p List.mem_cons_self),
      ih _ fun q hq => h q (List.mem_cons_of_mem p hq)]
    simp

theorem foldl_addPart_climb (h : ∀ p ∈ before, PlainPart p) (steps kept : Nat) :
    (List.replicate steps "..").foldl (addPart false) (before ++ List.replicate kept "..") =
      before.drop steps ++ List.replicate (kept + (steps - before.length)) ".." := by
  induction steps generalizing before kept with
  | zero => simp
  | succ steps ih =>
    rw [List.replicate_succ, List.foldl_cons]
    cases before with
    | nil =>
      have hstep : addPart false ([] ++ List.replicate kept "..") ".." =
          [] ++ List.replicate (kept + 1) ".." := by
        cases kept <;> simp [addPart, List.replicate_succ]
      rw [hstep, ih (by simp)]
      simp [Nat.add_comm, Nat.add_left_comm]
    | cons p rest =>
      have hstep : addPart false (p :: rest ++ List.replicate kept "..") ".." =
          rest ++ List.replicate kept ".." := by
        simp [addPart, (h p List.mem_cons_self).ne_dots]
      rw [hstep, ih fun q hq => h q (List.mem_cons_of_mem p hq)]
      simp

theorem normalPath_joinWith {first : String} {rest : List String} (hfirst : first ≠ "")
    (h : ∀ p ∈ first :: rest, '/' ∉ p.toList)
    (hleft : (Text.joinWith "/" (normalParts false (first :: rest))).isEmpty = false) :
    normalPath (Text.joinWith "/" (first :: rest)) =
      Text.joinWith "/" (normalParts false (first :: rest)) := by
  obtain ⟨c, cs, hcs, hc⟩ := Text.exists_first hfirst (h first List.mem_cons_self) rest
  have hslashes : ((Text.joinWith "/" (first :: rest)).toList.takeWhile (· == '/')).length = 0 := by
    simp [hcs, hc]
  rw [normalPath, hslashes, Text.splitOn_joinWith (by simp) h]
  simp [hleft]

end Dots

/-! ## Relative imports -/

namespace Python

/-- The parts of a path that stand for leading dots. -/
def climb (count : Nat) : List String :=
  if count = 1 then ["."] else List.replicate (count - 1) ".."

section Climb

variable {dirs parts : List String} {count : Nat}

theorem climb_ne_nil (hcount : 1 ≤ count) : climb count ≠ [] := by
  unfold climb
  split
  · simp
  · simp; omega

theorem mem_climb {p : String} (h : p ∈ climb count) : p = "." ∨ p = ".." := by
  unfold climb at h
  split at h
  · exact Or.inl (List.mem_singleton.mp h)
  · exact Or.inr (List.eq_of_mem_replicate h)

theorem foldl_addPart_climbing {before : List String} (hbefore : ∀ p ∈ before, PlainPart p)
    (count : Nat) :
    (climb count).foldl (addPart false) before =
      before.drop (count - 1) ++ List.replicate (count - 1 - before.length) ".." := by
  unfold climb
  split
  · next hone => simp [hone, addPart]
  · simpa using foldl_addPart_climb hbefore (count - 1) 0

/-- Dots behind a folder lead up from it, and out of the repository if there are too many. -/
theorem normalParts_climb (hdirs : ∀ d ∈ dirs, PlainPart d) (hparts : ∀ p ∈ parts, PlainPart p)
    (count : Nat) :
    normalParts false (dirs ++ (climb count ++ parts)) =
      List.replicate (count - 1 - dirs.length) ".." ++
        (dirs.take (dirs.length - (count - 1)) ++ parts) := by
  have hbefore : ∀ p ∈ dirs.reverse, PlainPart p := fun p hp => hdirs p (List.mem_reverse.mp hp)
  rw [normalParts, List.foldl_append, List.foldl_append, foldl_addPart_plain false [] hdirs,
    List.append_nil, foldl_addPart_climbing hbefore, foldl_addPart_plain false _ hparts,
    List.drop_reverse]
  simp

theorem isRelativeImport_climb (hcount : 1 ≤ count) (hparts : parts ≠ []) :
    isRelativeImport (Text.joinWith "/" (climb count ++ parts)) = true := by
  obtain ⟨first, rest, hclimb⟩ := List.exists_cons_of_ne_nil (climb_ne_nil hcount)
  have hfirst : first = "." ∨ first = ".." := mem_climb (hclimb ▸ List.mem_cons_self)
  have hrest : rest ++ parts ≠ [] := by simp [hparts]
  rw [hclimb, List.cons_append, Text.joinWith_cons first hrest]
  rcases hfirst with rfl | rfl
  · simp [isRelativeImport, Text.startsWith]
  · simp [isRelativeImport, Text.startsWith]

theorem resolveImport_climb {name : String} (hcount : 1 ≤ count) (hdirs : ∀ d ∈ dirs, PlainPart d)
    (hname : '/' ∉ name.toList) (hne : parts ≠ []) (hparts : ∀ p ∈ parts, PlainPart p)
    (outlines : Table String Outline) (external : Bool) :
    resolveImport outlines (Text.joinWith "/" (dirs ++ [name]))
        (Text.joinWith "/" (climb count ++ parts)) external =
      withEnding? outlines (Text.joinWith "/" (List.replicate (count - 1 - dirs.length) ".." ++
        (dirs.take (dirs.length - (count - 1)) ++ parts))) := by
  have hpath : climb count ++ parts ≠ [] := by simp [hne]
  rw [resolveImport, isRelativeImport_climb hcount hne, if_pos rfl, folderOf_joinWith hdirs hname,
    joinPaths_joinWith hdirs hpath]
  have hall : ∀ p ∈ dirs ++ (climb count ++ parts), p ≠ "" ∧ '/' ∉ p.toList := by
    intro p hp
    rcases List.mem_append.mp hp with hp | hp
    · exact ⟨(hdirs p hp).ne_empty, (hdirs p hp).no_slash⟩
    rcases List.mem_append.mp hp with hp | hp
    · rcases mem_climb hp with rfl | rfl <;> decide
    · exact ⟨(hparts p hp).ne_empty, (hparts p hp).no_slash⟩
  have hnormal := normalParts_climb hdirs hparts count
  have hleft : (Text.joinWith "/" (normalParts false (dirs ++ (climb count ++ parts)))).isEmpty =
      false := by
    obtain ⟨p, hp⟩ := List.exists_mem_of_ne_nil parts hne
    rw [hnormal]
    exact Text.joinWith_isEmpty (by simp [hp]) (hparts p hp).ne_empty
  obtain ⟨first, rest, hfirst⟩ : ∃ first rest, dirs ++ (climb count ++ parts) = first :: rest :=
    List.exists_cons_of_ne_nil (by simp [hne])
  rw [hfirst] at hall hleft hnormal ⊢
  rw [normalPath_joinWith (hall first List.mem_cons_self).1 (fun p hp => (hall p hp).2) hleft,
    hnormal]

theorem withEnding?_eq_none {outlines : Table String Outline} {path : String}
    (hpath : Text.startsWith path ".." = true)
    (h : ∀ p ∈ outlines.keys, Text.startsWith p ".." = false) :
    withEnding? outlines path = none := by
  refine List.find?_eq_none.mpr fun p hp hhas => ?_
  obtain ⟨ending, -, rfl⟩ := List.mem_map.mp hp
  have hstart : Text.startsWith (path ++ ending) ".." = true := by
    simp only [Text.startsWith, List.isPrefixOf_iff_prefix, String.toList_append] at hpath ⊢
    exact hpath.trans (List.prefix_append _ _)
  rw [h _ (Table.has_iff.mp hhas)] at hstart
  cases hstart

end Climb

/-! ## How they are noted -/

section Noted

variable {parts : List String} {count : Nat} {n : SyntaxNode}

def dots (count : Nat) : String := String.ofList (List.replicate count '.')

/-- The modules of `from m import a, b`: the module, or each name if there are only dots. -/
def modulesOf (n : SyntaxNode) (parts : List String) : List (List String) :=
  if parts.isEmpty then ((importedNames n).filter (· != "*")).map ([·]) else [parts]

theorem dotsPath_append (count : Nat) (hparts : parts ≠ []) :
    dotsPath count ++ Text.joinWith "/" parts = Text.joinWith "/" (climb count ++ parts) := by
  have hup : ∀ steps, String.ofList (List.replicate steps ['.', '.', '/']).flatten ++
      Text.joinWith "/" parts = Text.joinWith "/" (List.replicate steps ".." ++ parts) := by
    intro steps
    induction steps with
    | zero => simp
    | succ steps ih =>
      rw [List.replicate_succ, List.replicate_succ, List.cons_append,
        Text.joinWith_cons ".." (by simp [hparts]), ← ih]
      simp [← String.toList_inj]
  unfold dotsPath climb
  split
  · rw [List.singleton_append, Text.joinWith_cons "." hparts]
    simp
  · exact hup (count - 1)

theorem toList_dots (count : Nat) : (dots count).toList = List.replicate count '.' := by
  simp [dots]

theorem takeWhile_joinWith (hparts : ∀ p ∈ parts, ImportName p) :
    (Text.joinWith "." parts).toList.takeWhile (· == '.') = [] := by
  cases parts with
  | nil => rfl
  | cons p rest =>
    have hp : ImportName p := hparts p List.mem_cons_self
    obtain ⟨c, cs, hcs⟩ := Text.exists_cons_of_ne_empty hp.ne_empty
    have hc : c ≠ '.' := fun hc => hp.no_dot (by simp [hcs, hc])
    cases rest with
    | nil => simp [Text.joinWith, hcs, hc]
    | cons q rest => simp [Text.joinWith, String.intercalate_cons_cons, hcs, hc]

theorem takeWhile_dots (count : Nat) (hparts : ∀ p ∈ parts, ImportName p) :
    (dots count ++ Text.joinWith "." parts).toList.takeWhile (· == '.') =
      List.replicate count '.' := by
  have hdots : ∀ c ∈ List.replicate count '.', (c == '.') = true := by
    intro c hc
    simp [List.eq_of_mem_replicate hc]
  rw [String.toList_append, toList_dots, List.takeWhile_append_of_pos hdots,
    takeWhile_joinWith hparts, List.append_nil]

theorem sources_fromImports (hcount : 1 ≤ count)
    (hmodule : n.fieldText "module_name" = dots count ++ Text.joinWith "." parts)
    (hparts : ∀ p ∈ parts, ImportName p) :
    (fromImports n).map (·.source) =
      (modulesOf n parts).map fun m => Text.joinWith "/" (climb count ++ m) := by
  have hdrop : String.ofList ((dots count ++ Text.joinWith "." parts).toList.drop count) =
      Text.joinWith "." parts := by
    simp [toList_dots]
  have hrest : Text.replaceChar '.' '/' (Text.joinWith "." parts) = Text.joinWith "/" parts :=
    Text.replaceChar_joinWith '.' '/' "." fun p hp => (hparts p hp).no_dot
  have hcount' : count ≠ 0 := by omega
  simp only [fromImports, hmodule, takeWhile_dots count hparts, List.length_replicate, hcount',
    if_false, hdrop, hrest]
  cases parts with
  | nil =>
    -- each name is a module of its own
    have hname : ∀ name : String,
        dotsPath count ++ name = Text.joinWith "/" (climb count ++ [name]) := fun name => by
      rw [← dotsPath_append count (List.cons_ne_nil name [])]
      simp [Text.joinWith]
    simp [Text.joinWith, modulesOf, hname, Function.comp_def]
  | cons p rest =>
    have hempty := Text.joinWith_isEmpty (List.mem_cons_self (a := p) (l := rest))
      (hparts p List.mem_cons_self).ne_empty
    simp [hempty, modulesOf, dotsPath_append count (List.cons_ne_nil p rest)]

theorem ne_nil_of_mem_modulesOf {m : List String} (h : m ∈ modulesOf n parts) : m ≠ [] := by
  unfold modulesOf at h
  split at h
  · obtain ⟨name, -, rfl⟩ := List.mem_map.mp h
    simp
  · next hparts =>
    rw [List.mem_singleton.mp h]
    simpa using hparts

theorem imports_enterStatement (hn : n.kind = "import_from_statement") (here : Nesting)
    (o : Outline) : (enterStatement here n o).imports = o.imports ++ fromImports n := by
  obtain ⟨label, children⟩ := n
  have hlabel : label.kind = "import_from_statement" := hn
  simp [enterStatement, definition?, SyntaxNode.kind, SyntaxNode.label, hlabel, Outline.addImports]

end Noted

/-- **Relative imports.** Each module that a statement means is one import, which leads to its path
under the folder that the dots lead up to, with the first ending that has an outline. -/
theorem relative_imports_resolved {n : SyntaxNode} {dirs parts : List String} {name : String}
    {count : Nat} (hn : n.kind = "import_from_statement") (hcount : 1 ≤ count)
    (hmodule : n.fieldText "module_name" = dots count ++ Text.joinWith "." parts)
    (hparts : ∀ m ∈ modulesOf n parts, ∀ r ∈ m, ImportName r)
    (hdirs : ∀ d ∈ dirs, PlainPart d) (hname : '/' ∉ name.toList) (here : Nesting) (o : Outline) :
    ∃ noted, (enterStatement here n o).imports = o.imports ++ noted ∧
      List.Forall₂ (fun i m => ∀ (outlines : Table String Outline) (external : Bool),
        (count - 1 ≤ dirs.length →
          resolveImport outlines (Text.joinWith "/" (dirs ++ [name])) i.source external =
            (importEndings.map (Text.joinWith "/" (dirs.take (dirs.length - (count - 1)) ++ m) ++
              ·)).find? outlines.has) ∧
        (dirs.length < count - 1 → (∀ p ∈ outlines.keys, Text.startsWith p ".." = false) →
          resolveImport outlines (Text.joinWith "/" (dirs ++ [name])) i.source external = none))
        noted (modulesOf n parts) := by
  refine ⟨fromImports n, imports_enterStatement hn here o, ?_⟩
  have hnames : ∀ p ∈ parts, ImportName p := by
    intro p hp
    refine hparts parts ?_ p hp
    have hne : parts.isEmpty = false := by simpa using List.ne_nil_of_mem hp
    simp [modulesOf, hne]
  have hsources := sources_fromImports hcount hmodule hnames
  rw [← forall₂_iff_map_eq] at hsources
  obtain ⟨hlength, hsource⟩ := List.forall₂_iff_zip.mp hsources
  refine List.forall₂_iff_zip.mpr ⟨hlength, fun {i m} hmem outlines external => ?_⟩
  have hm : m ∈ modulesOf n parts := (List.of_mem_zip hmem).2
  have hplain : ∀ r ∈ m, PlainPart r := fun r hr => (hparts m hm r hr).plainPart
  have hresolve := resolveImport_climb hcount hdirs hname (ne_nil_of_mem_modulesOf hm) hplain
    outlines external
  rw [hsource hmem, hresolve]
  constructor
  · intro hinside
    rw [Nat.sub_eq_zero_of_le hinside, List.replicate_zero, List.nil_append, withEnding?]
  · intro houtside hkeys
    refine withEnding?_eq_none ?_ hkeys
    obtain ⟨steps, hsteps⟩ := Nat.exists_eq_succ_of_ne_zero (Nat.sub_ne_zero_of_lt houtside)
    rw [hsteps, List.replicate_succ, List.cons_append,
      Text.joinWith_cons ".." (by simp [ne_nil_of_mem_modulesOf hm])]
    simp [Text.startsWith]

def importHelper : SyntaxNode :=
  .mk { kind := "import_from_statement", field := none, named := true,
        text := "from ..util import helper", startLine := 1, endLine := 1 }
    [.mk { kind := "relative_import", field := some "module_name", named := true, text := "..util",
           startLine := 1, endLine := 1 } [],
     .mk { kind := "dotted_name", field := some "name", named := true, text := "helper",
           startLine := 1, endLine := 1 } []]

def emptyOutline : Outline := { path := "pkg/util.py", language := "python" }

/-- From `pkg/sub/app.py` the statement leads to `pkg/util.py`, from `app.py` nowhere. -/
theorem relative_imports_resolved_importHelper :
    ∃ i : ImportLine, (enterStatement {} importHelper emptyOutline).imports = [i] ∧
      resolveImport [("pkg/util.py", emptyOutline)] "pkg/sub/app.py" i.source false =
        some "pkg/util.py" ∧
      resolveImport [("pkg/util.py", emptyOutline)] "app.py" i.source false = none := by
  have hmodule : importHelper.fieldText "module_name" = dots 2 ++ Text.joinWith "." ["util"] := by
    decide
  have hutil : ∀ m ∈ modulesOf importHelper ["util"], ∀ r ∈ m, ImportName r := by decide
  have hdirs : ∀ d ∈ ["pkg", "sub"], PlainPart d := by decide
  have hname : '/' ∉ "app.py".toList := by decide
  obtain ⟨noted, himports, hnoted⟩ :=
    relative_imports_resolved (by decide) (by decide) hmodule hutil hdirs hname {} emptyOutline
  obtain ⟨noted', himports', hnoted'⟩ :=
    relative_imports_resolved (by decide) (by decide) hmodule hutil (List.forall_mem_nil PlainPart)
      hname {} emptyOutline
  obtain rfl : noted' = noted := List.append_cancel_left (himports'.symm.trans himports)
  cases hnoted with
  | cons hinside hrest =>
    cases hrest
    cases hnoted' with
    | cons houtside _ =>
      refine ⟨_, himports, ((hinside _ false).1 (by decide)).trans (by decide),
        (houtside _ false).2 (by decide) (by decide)⟩

end Python

end CodeAtlas
