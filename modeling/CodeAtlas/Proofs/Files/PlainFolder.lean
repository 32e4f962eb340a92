import CodeAtlas.Assembly.Build
import CodeAtlas.Proofs.Table

/-!
# A folder of plain files

A repository that is one folder of source files, without links and without folders in it.

* **`PlainFolder.discover_eq`**: a search finds all of its files.
-/

namespace CodeAtlas

/-! ## Steps along a path -/

theorem not_stay_of_notMem {part : String} (h : part ∉ ["", ".", ".."]) :
    ¬ (part = "" ∨ part = ".") ∧ part ≠ ".." := by
  simp only [List.mem_cons, List.not_mem_nil, or_false, not_or] at h
  exact ⟨not_or.mpr ⟨h.1, h.2.1⟩, h.2.2⟩

section Follow

variable {tree : Entry} {links : Nat} {here : List String} {part : String}

theorem follow_folder {entries : List (String × Entry)} (hpart : part ∉ ["", ".", ".."])
    (hsize : part.utf8ByteSize ≤ nameLimit)
    (h : tree.below? (here ++ [part]) = some (.folder entries)) (rest : List String) :
    follow tree false links here (part :: rest) =
      follow tree false links (here ++ [part]) rest := by
  obtain ⟨hstay, hup⟩ := not_stay_of_notMem hpart
  rw [follow, if_neg hstay, if_neg hup, if_neg (by simp), if_neg (Nat.not_lt.mpr hsize), h]

theorem follow_file {f : SourceFile} (hpart : part ∉ ["", ".", ".."])
    (hsize : part.utf8ByteSize ≤ nameLimit) (h : tree.below? (here ++ [part]) = some (.file f)) :
    follow tree false links here [part] = .ok (here ++ [part]) := by
  obtain ⟨hstay, hup⟩ := not_stay_of_notMem hpart
  rw [follow, if_neg hstay, if_neg hup, if_neg (by simp), if_neg (Nat.not_lt.mpr hsize), h]
  rfl

variable {met : Table (List String) (Option (List String))}

theorem Resolution.run_part {rest : List ResolutionStep} (hpart : part ∉ ["", ".", ".."])
    (h : ∀ target, tree.below? (here ++ [part]) ≠ some (.link target)) (fuel : Nat) :
    run tree (fuel + 1) ⟨here, .part part :: rest, met⟩ =
      run tree fuel ⟨here ++ [part], rest, met⟩ := by
  obtain ⟨hstay, hup⟩ := not_stay_of_notMem hpart
  change run tree fuel (take tree ⟨here, .part part :: rest, met⟩ part rest) = _
  unfold take
  rw [if_neg hstay, if_neg hup]
  dsimp only
  split
  · rename_i target htarget
    exact absurd htarget (h target)
  · rfl

theorem Resolution.run_done (fuel : Nat) :
    run tree fuel ⟨here, [], met⟩ = here := by
  cases fuel <;> rfl

end Follow

/-! ## The folder -/

def isSourceName (name : String) : Bool :=
  !(["", ".", ".."].contains name) && !name.toList.contains (Char.ofNat 0) &&
    decide (name.utf8ByteSize ≤ nameLimit) &&
    ({} : Discovery).extensions.contains ({ parts := [name] } : Path).extension

/-- Source files with distinct names, in the order of their names. -/
structure PlainFolder where
  files : List (String × SourceFile)
  names : ∀ x ∈ files, isSourceName x.1 = true := by decide
  order : (files.map Prod.fst).Pairwise (· ≤ ·) := by decide
  distinct : (files.map Prod.fst).Nodup := by decide

namespace PlainFolder

variable (p : PlainFolder)

def entries : List (String × Entry) := p.files.map fun x => (x.1, .file x.2)

def workspace : Workspace where
  tree := .folder [("repo", .folder p.entries)]
  current := []
  homes := fun _ => none

def repo : Path := { root := "/", parts := ["repo"] }

theorem below_repo : p.workspace.tree.below? ["repo"] = some (.folder p.entries) := rfl

variable {p} {x : String × SourceFile}

theorem below_file (hx : x ∈ p.files) :
    p.workspace.tree.below? ["repo", x.1] = some (.file x.2) := by
  have hkeys : Table.keys p.entries = p.files.map Prod.fst := by
    rw [Table.keys, entries, List.map_map]
    rfl
  have hget : Table.get? p.entries x.1 = some (.file x.2) :=
    Table.get?_of_mem (hkeys ▸ p.distinct) (List.mem_map.mpr ⟨x, hx, rfl⟩)
  change (Table.get? p.entries x.1).bind (Entry.below? []) = _
  rw [hget]
  rfl

theorem name_facts (hx : x ∈ p.files) :
    x.1 ∉ ["", ".", ".."] ∧ Char.ofNat 0 ∉ x.1.toList ∧ x.1.utf8ByteSize ≤ nameLimit ∧
      ({} : Discovery).extensions.contains ({ parts := [x.1] } : Path).extension = true := by
  have hname := p.names x hx
  simp only [isSourceName, Bool.and_eq_true, Bool.not_eq_true', decide_eq_true_eq] at hname
  obtain ⟨⟨⟨hplain, hnull⟩, hsize⟩, hext⟩ := hname
  refine ⟨fun hc => ?_, fun hc => ?_, hsize, hext⟩
  · rw [List.contains_iff_mem.mpr hc] at hplain
    cases hplain
  · rw [List.contains_iff_mem.mpr hc] at hnull
    cases hnull

/-! ## Its paths -/

theorem text_child (name : String) : (repo.child name).text = "/repo/" ++ name := by
  have hjoin : "/" ++ Text.joinWith "/" ["repo", name] = "/repo/" ++ name := by
    change "/" ++ ("repo" ++ "/" ++ name) = _
    rw [← String.append_assoc]
    rfl
  have hne : ("/repo/" ++ name).isEmpty = false := by simp
  change (if ("/" ++ Text.joinWith "/" ["repo", name]).isEmpty then "." else
    "/" ++ Text.joinWith "/" ["repo", name]) = _
  rw [hjoin, hne]
  rfl

theorem locate_folder {w : Workspace} {entries : List (String × Entry)}
    (h : w.tree.below? ["repo"] = some (.folder entries)) :
    w.locate false repo = .ok ["repo"] := by
  rw [Workspace.locate, if_neg (by decide), if_neg (by decide)]
  refine (follow_folder (by decide) (by decide) h []).trans ?_
  rw [follow]
  rfl

variable (p) in
theorem locate_repo : p.workspace.locate false repo = .ok ["repo"] := locate_folder p.below_repo

theorem hasNull_child (hx : x ∈ p.files) : (repo.child x.1).hasNull = false := by
  obtain ⟨-, hnull, -, -⟩ := name_facts hx
  simp [Path.hasNull, repo, Path.child, hnull]

theorem locate_eq (hx : x ∈ p.files) :
    p.workspace.locate false (repo.child x.1) = .ok ["repo", x.1] := by
  obtain ⟨hplain, -, hsize, -⟩ := name_facts hx
  have hlimit : ¬ pathLimit ≤ (repo.child x.1).text.utf8ByteSize := by
    have hprefix : "/repo/".utf8ByteSize = 6 := by decide
    rw [text_child, String.utf8ByteSize_append, hprefix]
    unfold nameLimit at hsize
    unfold pathLimit
    omega
  rw [Workspace.locate, hasNull_child hx, if_neg Bool.false_ne_true, if_neg hlimit]
  refine (follow_folder (by decide) (by decide) p.below_repo [x.1]).trans ?_
  exact follow_file hplain hsize (below_file hx)

variable (p) in
theorem entry_repo : p.workspace.entry repo = .ok (.folder p.entries) := by
  rw [Workspace.entry, p.locate_repo]
  rfl

theorem file_eq (hx : x ∈ p.files) : p.workspace.file (repo.child x.1) = .ok x.2 := by
  rw [Workspace.file, Workspace.entry, locate_eq hx]
  dsimp only [bind, Except.bind]
  rw [below_file hx]

theorem resolvedNames_repo : p.workspace.resolvedNames repo = ["repo"] := by
  have hstart : p.workspace.start repo = [] := rfl
  rw [Workspace.resolvedNames, hstart]
  refine (Resolution.run_part (by decide) (fun target h => ?_) _).trans (Resolution.run_done _)
  rw [List.nil_append, p.below_repo] at h
  cases h

theorem resolvedNames_eq (hx : x ∈ p.files) :
    p.workspace.resolvedNames (repo.child x.1) = ["repo", x.1] := by
  obtain ⟨hplain, -, -, -⟩ := name_facts hx
  have hstart : p.workspace.start (repo.child x.1) = [] := rfl
  have hfuel : (repo.child x.1).parts.length + p.workspace.tree.linkSteps + 1 =
      p.workspace.tree.linkSteps + 1 + 1 + 1 := by
    change 2 + _ + 1 = _
    omega
  rw [Workspace.resolvedNames, hstart, hfuel]
  -- neither the folder nor the file is a link
  refine (Resolution.run_part (by decide) (fun target h => ?_) _).trans
    ((Resolution.run_part hplain (fun target h => ?_) _).trans (Resolution.run_done _))
  · rw [List.nil_append, p.below_repo] at h
    cases h
  · rw [List.nil_append, List.singleton_append, below_file hx] at h
    cases h

variable (p) in
theorem resolve_repo : p.workspace.resolve repo = .ok repo := by
  rw [Workspace.resolve, if_neg (by decide), resolvedNames_repo]
  dsimp only
  rw [show ({ root := "/", parts := ["repo"] } : Path) = repo from rfl, p.locate_repo]

theorem resolve_eq (hx : x ∈ p.files) :
    p.workspace.resolve (repo.child x.1) = .ok (repo.child x.1) := by
  rw [Workspace.resolve, hasNull_child hx, if_neg Bool.false_ne_true, resolvedNames_eq hx]
  dsimp only
  rw [show ({ root := "/", parts := ["repo", x.1] } : Path) = repo.child x.1 from rfl,
    locate_eq hx]

theorem relative_eq (hx : x ∈ p.files) : p.workspace.relative repo (repo.child x.1) = .ok x.1 := by
  obtain ⟨hplain, -, -, -⟩ := name_facts hx
  have hne : x.1 ≠ "" := fun he => hplain (he ▸ List.mem_cons_self)
  have htext : ({ parts := [x.1] } : Path).text = x.1 := by
    have hjoin : "" ++ Text.joinWith "/" [x.1] = x.1 := String.empty_append
    change (if ("" ++ Text.joinWith "/" [x.1]).isEmpty then "." else
      "" ++ Text.joinWith "/" [x.1]) = x.1
    rw [hjoin]
    simp [hne]
  have hrelative : (repo.child x.1).relativeTo? repo = some { parts := [x.1] } := by
    simp [Path.relativeTo?, Path.child, repo]
  rw [Workspace.relative, resolve_eq hx]
  dsimp only
  rw [hrelative, Option.getD_some, htext]

/-! ## Its files -/

variable (p) in
theorem byName_entries : Discovery.byName p.entries = p.entries := by
  refine List.mergeSort_of_pairwise ?_
  have horder := p.order
  rw [List.pairwise_map] at horder
  rw [entries, List.pairwise_map]
  exact horder.imp fun h => decide_eq_true h

variable (p) in
/-- **A search finds all files** of the folder, in their order. -/
theorem discover_eq {d : Discovery} (hexcluded : d.excluded = []) (hincluded : d.included = [])
    (hextensions : d.extensions = ({} : Discovery).extensions) :
    p.workspace.discover repo repo d = p.files.map fun x => repo.child x.1 := by
  have hfolders : p.entries.filterMap (d.folderAt? repo repo) = [] := by
    refine List.filterMap_eq_nil_iff.mpr fun e he => ?_
    obtain ⟨x, -, rfl⟩ := List.mem_map.mp he
    rfl
  have hfiles : d.filesIn p.workspace repo repo p.entries =
      p.files.map fun x => repo.child x.1 := by
    rw [Discovery.filesIn, entries, List.filterMap_map, ← List.filterMap_eq_map]
    refine List.filterMap_congr fun x hx => ?_
    obtain ⟨-, -, -, hext⟩ := name_facts hx
    have hext' : ({} : Discovery).extensions.contains (repo.child x.1).extension = true := hext
    simp only [Function.comp_apply]
    rw [if_pos]
    simp only [Discovery.excludes, hexcluded, Discovery.lists, Discovery.includes, hincluded,
      hextensions, hext']
    rfl
  rw [Workspace.discover, p.entry_repo]
  dsimp only
  rw [Discovery.walk, p.byName_entries, hfolders, List.append_nil, Discovery.walk, List.append_nil,
    hfiles]

end PlainFolder

end CodeAtlas
