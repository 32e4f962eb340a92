import CodeAtlas.Proofs.Files.Preorder

/-!
# The search as a whole

What a search lists does not depend on the order in which folders list their entries.

* **`Workspace.discover_is_recursive`**: what a search lists.
-/

namespace CodeAtlas

/-! ## The order of entries -/

theorem notMem_dots {part : String} (hpart : ¬ (part = "" ∨ part = ".")) (hup : part ≠ "..") :
    part ∉ ["", ".", ".."] := by
  simpa [not_or, and_assoc] using ⟨(not_or.mp hpart).1, (not_or.mp hpart).2, hup⟩

namespace Entry

def bare : Entry → Entry
  | .folder _ => .folder []
  | e => e

/-- Both trees have the same under every list of names, but for the order of entries. -/
def SameBelow (tree tree' : Entry) : Prop :=
  ∀ names, (tree.below? names).map bare = (tree'.below? names).map bare

namespace SameBelow

variable {tree tree' e e' : Entry} {names : List String} {entries entries' : List (String × Entry)}

theorem symm (h : SameBelow tree tree') : SameBelow tree' tree := fun names => (h names).symm

theorem exists_below (h : SameBelow tree tree') (he : tree.below? names = some e) :
    ∃ e', tree'.below? names = some e' ∧ e'.bare = e.bare := by
  have hnames := h names
  rw [he, Option.map_some, eq_comm] at hnames
  exact Option.map_eq_some_iff.mp hnames

theorem file {f : SourceFile} (h : SameBelow tree tree') (hf : tree.below? names = some (.file f)) :
    tree'.below? names = some (.file f) := by
  obtain ⟨e, he, hbare⟩ := h.exists_below hf
  cases e <;> simp_all [bare]

theorem link {target : String} (h : SameBelow tree tree')
    (ht : tree.below? names = some (.link target)) : tree'.below? names = some (.link target) := by
  obtain ⟨e, he, hbare⟩ := h.exists_below ht
  cases e <;> simp_all [bare]

theorem folder (h : SameBelow tree tree') (he : tree.below? names = some (.folder entries)) :
    ∃ entries', tree'.below? names = some (.folder entries') := by
  obtain ⟨e, he, hbare⟩ := h.exists_below he
  cases e <;> simp_all [bare]

theorem isFileAt_eq {w w' : Workspace} (h : SameBelow e e') (hfile : ∀ p, w'.isFile p = w.isFile p)
    (p : Path) : e'.isFileAt w' p = e.isFileAt w p := by
  have hbare : e.bare = e'.bare := Option.some.inj (h [])
  cases e <;> cases e' <;> simp_all [bare, isFileAt]

theorem none (h : SameBelow tree tree') (hn : tree.below? names = none) :
    tree'.below? names = none := by
  have hnames := h names
  rwa [hn, Option.map_none, eq_comm, Option.map_eq_none_iff] at hnames

theorem below (h : SameBelow tree tree') (he : tree.below? names = some e)
    (he' : tree'.below? names = some e') : SameBelow e e' := by
  intro rest
  have hrest := h (names ++ rest)
  rwa [below?_append, below?_append, he, he'] at hrest

theorem follow_eq (h : SameBelow tree tree') (links : Nat) (here parts : List String) :
    follow tree false links here parts = follow tree' false links here parts := by
  induction links, here, parts using follow.induct tree false with
  | case1 links here => rw [follow, follow]
  | case2 links here part rest hpart ih => rw [follow_stay hpart, follow_stay hpart, ih]
  | case3 links here rest hpart ih => rw [follow_up, follow_up, ih]
  | case4 links here part rest hpart hup hnew => exact absurd hnew.1 Bool.false_ne_true
  | case5 links here part rest hpart hup hnew hlong =>
    have hpart := notMem_dots hpart hup
    rw [follow_long hpart hlong, follow_long hpart hlong]
  | case6 links here part rest hpart hup hnew hlong entries he ih =>
    have hpart := notMem_dots hpart hup
    obtain ⟨entries', he'⟩ := h.folder he
    rw [follow_folder hpart (Nat.not_lt.mp hlong) he,
      follow_folder hpart (Nat.not_lt.mp hlong) he', ih]
  | case7 here part rest hpart hup hnew hlong target he =>
    have hpart := notMem_dots hpart hup
    rw [follow_noLinks hpart (Nat.not_lt.mp hlong) he,
      follow_noLinks hpart (Nat.not_lt.mp hlong) (h.link he)]
  | case8 here part rest hpart hup hnew hlong target he links start ih =>
    have hpart := notMem_dots hpart hup
    rw [follow_link hpart (Nat.not_lt.mp hlong) he,
      follow_link hpart (Nat.not_lt.mp hlong) (h.link he)]
    exact ih
  | case9 links here part rest hpart hup hnew hlong f he hrest =>
    have hpart := notMem_dots hpart hup
    obtain rfl := List.isEmpty_iff.mp hrest
    rw [follow_file hpart (Nat.not_lt.mp hlong) he,
      follow_file hpart (Nat.not_lt.mp hlong) (h.file he)]
  | case10 links here part rest hpart hup hnew hlong f he hrest =>
    rw [follow, follow, if_neg hpart, if_neg hpart, if_neg hup, if_neg hup, if_neg hnew,
      if_neg hnew, if_neg hlong, if_neg hlong, he, h.file he]
  | case11 links here part rest hpart hup hnew hlong he hrest =>
    exact absurd hrest Bool.false_ne_true
  | case12 links here part rest hpart hup hnew hlong he hrest =>
    rw [follow, follow, if_neg hpart, if_neg hpart, if_neg hup, if_neg hup, if_neg hnew,
      if_neg hnew, if_neg hlong, if_neg hlong, he, h.none he]

theorem keys_subset (h : SameBelow (.folder entries) (.folder entries'))
    (hdistinct : (Table.keys entries).Nodup) (hdistinct' : (Table.keys entries').Nodup) :
    Table.keys entries ⊆ Table.keys entries' := by
  intro name hname
  obtain ⟨x, hx, rfl⟩ := List.mem_map.mp hname
  obtain ⟨e, he, -⟩ := h.exists_below (below?_of_mem hdistinct hx [])
  obtain ⟨e', hget, -⟩ := Option.bind_eq_some_iff.mp he
  exact List.mem_map.mpr ⟨_, (Table.get?_eq_some_iff hdistinct').mp hget, rfl⟩

/-- Folders that differ in the order of entries agree in the order of names. -/
theorem forall₂_inOrder (h : SameBelow (.folder entries) (.folder entries'))
    (hdistinct : (Table.keys entries).Nodup) (hdistinct' : (Table.keys entries').Nodup) :
    List.Forall₂ (fun x y => x ∈ entries ∧ y ∈ entries' ∧ x.1 = y.1 ∧ SameBelow x.2 y.2)
      (Discovery.inOrder entries) (Discovery.inOrder entries') := by
  have hkeys : (Table.keys entries).Perm (Table.keys entries') :=
    (List.perm_ext_iff_of_nodup hdistinct hdistinct').mpr fun name =>
      ⟨fun hx => h.keys_subset hdistinct hdistinct' hx,
        fun hx => h.symm.keys_subset hdistinct' hdistinct hx⟩
  have hnames : (Discovery.inOrder entries).map Prod.fst =
      (Discovery.inOrder entries').map Prod.fst :=
    (((Discovery.inOrder_perm entries).map _).trans
      (hkeys.trans ((Discovery.inOrder_perm entries').map _).symm)).eq_of_pairwise
      (fun x y _ _ => String.le_antisymm)
      (List.pairwise_map.mpr (Discovery.pairwise_inOrder entries))
      (List.pairwise_map.mpr (Discovery.pairwise_inOrder entries'))
  have hsame : List.Forall₂ (fun x y => x.1 = y.1) (Discovery.inOrder entries)
      (Discovery.inOrder entries') := forall₂_iff_map_eq.mpr hnames
  have hleft := (List.forall₂_and_left _ _).mpr
    ⟨fun x hx => (Discovery.inOrder_perm entries).mem_iff.mp hx, hsame⟩
  have hboth := (List.forall₂_and_left _ _).mpr
    ⟨fun y hy => (Discovery.inOrder_perm entries').mem_iff.mp hy, hleft.flip⟩
  refine hboth.flip.imp fun x y hxy => ?_
  obtain ⟨hy, hx, hname⟩ := hxy
  refine ⟨hx, hy, hname, h.below (below?_of_mem hdistinct hx []) ?_⟩
  rw [hname]
  exact below?_of_mem hdistinct' hy []

end SameBelow

end Entry

namespace Workspace

variable {w : Workspace} {tree : Entry}

theorem locate_of_sameBelow (h : w.tree.SameBelow tree) (p : Path) :
    { w with tree := tree }.locate false p = w.locate false p := by
  simp only [locate, start, h.follow_eq]

theorem isFile_of_sameBelow (h : w.tree.SameBelow tree) (p : Path) :
    { w with tree := tree }.isFile p = w.isFile p := by
  rw [Bool.eq_iff_iff, isFile_iff, isFile_iff]
  refine exists_congr fun f => ?_
  rw [entry_eq_ok_iff, entry_eq_ok_iff, locate_of_sameBelow h]
  exact exists_congr fun names => and_congr_right fun _ => ⟨h.symm.file, h.file⟩

end Workspace

namespace Discovery

theorem listing_of_sameBelow {d : Discovery} {w w' : Workspace} {e e' : Entry} {p : Path}
    (hnamed : e.WellNamed) (hnamed' : e'.WellNamed) (h : e.SameBelow e')
    (hfile : ∀ p, w'.isFile p = w.isFile p) : d.listing w' p e' = d.listing w p e := by
  induction hnamed generalizing e' p with
  | file f =>
    obtain rfl := Option.some.inj (h.file (show (Entry.file f).below? [] = _ from rfl))
    rfl
  | link target =>
    obtain rfl := Option.some.inj (h.link (show (Entry.link target).below? [] = _ from rfl))
    rfl
  | @folder entries distinct plain below ih =>
    obtain ⟨entries', he'⟩ := h.folder (show (Entry.folder entries).below? [] = _ from rfl)
    obtain rfl := Option.some.inj he'
    cases hnamed' with
    | folder distinct' plain' below' =>
      have hsame := h.forall₂_inOrder distinct distinct'
      have hsources : (inOrder entries).map (d.sourceAt? w p) =
          (inOrder entries').map (d.sourceAt? w' p) := by
        refine forall₂_iff_map_eq.mp (hsame.imp fun x y hxy => ?_)
        obtain ⟨-, -, hname, hbelow⟩ := hxy
        rw [sourceAt?, sourceAt?, hname, hbelow.isFileAt_eq hfile]
      have hblocks : (inOrder entries).map (d.block w p) =
          (inOrder entries').map (d.block w' p) := by
        refine forall₂_iff_map_eq.mp (hsame.imp fun x y hxy => ?_)
        obtain ⟨hx, hy, hname, hbelow⟩ := hxy
        rw [block, block, hname, ih x hx (below' y hy) hbelow]
      rw [listing_folder, listing_folder, ← Function.id_comp (d.sourceAt? w p),
        ← Function.id_comp (d.sourceAt? w' p), ← List.filterMap_map, ← List.filterMap_map, hsources,
        List.flatMap_def, List.flatMap_def, hblocks]

end Discovery

/-! ## The search as a whole -/

theorem Discovery.standsClear_of_relativeTo? {w : Workspace} {repo root : Path} {e : Entry}
    (h : (root.relativeTo? repo).isSome = true ∨ repo.relativeTo? root = none) :
    StandsClear w repo root e := by
  rintro names x hne hx rfl
  exfalso
  rcases h with h | h
  · unfold Path.relativeTo? at h
    split_ifs at h with hin
    · rw [Bool.and_eq_true, List.isPrefixOf_iff_prefix] at hin
      have hlength := hin.2.length_le
      rw [Path.descend, List.length_append] at hlength
      exact hne (List.length_eq_zero_iff.mp (by omega))
    · cases h
  · unfold Path.relativeTo? at h
    rw [if_pos] at h
    · cases h
    · rw [Bool.and_eq_true, List.isPrefixOf_iff_prefix]
      exact ⟨beq_self_eq_true _, List.prefix_append _ _⟩

namespace Workspace

variable {w : Workspace} {root repo : Path} {d : Discovery} {entries : List (String × Entry)}

theorem discover_eq_kept (hnamed : w.tree.WellNamed) (hroot : w.entry root = .ok (.folder entries))
    (hclear : Discovery.StandsClear w repo root (.folder entries)) :
    w.discover root repo d = d.kept w repo root (.folder entries) := by
  obtain ⟨names, -, hfolder⟩ := entry_eq_ok_iff.mp hroot
  rw [discover, hroot]
  dsimp only
  rw [Discovery.walk_eq (List.forall_mem_singleton.mpr (hnamed.of_below? hfolder).1)
    (List.forall_mem_singleton.mpr hclear), List.flatMap_singleton]

theorem discover_of_sameBelow {tree : Entry} (hnamed : w.tree.WellNamed)
    (hroot : w.entry root = .ok (.folder entries))
    (hclear : Discovery.StandsClear w repo root (.folder entries)) (hnamed' : tree.WellNamed)
    (h : w.tree.SameBelow tree) :
    { w with tree := tree }.discover root repo d = w.discover root repo d := by
  obtain ⟨names, hlocate, hfolder⟩ := entry_eq_ok_iff.mp hroot
  obtain ⟨entries', hfolder'⟩ := h.folder hfolder
  have hbelow := h.below hfolder hfolder'
  have hroot' : { w with tree := tree }.entry root = .ok (.folder entries') := by
    rw [entry_eq_ok_iff, locate_of_sameBelow h]
    exact ⟨names, hlocate, hfolder'⟩
  have hclear' : Discovery.StandsClear { w with tree := tree } repo root (.folder entries') := by
    intro front x hne hx hrepo
    obtain ⟨y, hy, hbare⟩ := hbelow.symm.exists_below hx
    obtain ⟨⟨target, rfl⟩, hfile⟩ := hclear front y hne hy hrepo
    rw [isFile_of_sameBelow h]
    exact ⟨⟨target, Option.some.inj (hx.symm.trans (hbelow.link hy))⟩, hfile⟩
  rw [discover_eq_kept hnamed' hroot' hclear', discover_eq_kept hnamed hroot hclear, Discovery.kept,
    Discovery.kept, Discovery.listing_of_sameBelow (hnamed.of_below? hfolder).1
      (hnamed'.of_below? hfolder').1 hbelow (isFile_of_sameBelow h)]

/-- **A search lists what the recursion lists**, less the files that the rule leaves out, and no
path twice, whatever the order in which folders list their entries. -/
theorem discover_is_recursive (d : Discovery) (hnamed : w.tree.WellNamed)
    (hroot : w.entry root = .ok (.folder entries))
    (hclear : Discovery.StandsClear w repo root (.folder entries)) :
    w.discover root repo d = d.kept w repo root (.folder entries) ∧
    (w.discover root repo d).Nodup ∧
    (∀ g ∈ w.discover root repo d, ∃ names e, names ≠ [] ∧ g = root.descend names ∧
      (Entry.folder entries).below? names = some e ∧ e.isFileAt w g = true) ∧
    (∀ tree : Entry, tree.WellNamed → w.tree.SameBelow tree →
      { w with tree := tree }.discover root repo d = w.discover root repo d) ∧
    ∀ names below, (Entry.folder entries).below? names = some (.folder below) →
      (∀ name ∈ names, name ∉ d.ignored) →
      d.kept w repo (root.descend names) (.folder below) <:+: w.discover root repo d ∧
        ∀ g ∈ w.discover root repo d,
          g ∈ d.kept w repo (root.descend names) (.folder below) ↔
            ∃ rest, g = root.descend (names ++ rest) := by
  obtain ⟨top, -, hfolder⟩ := entry_eq_ok_iff.mp hroot
  have hfolderNamed := (hnamed.of_below? hfolder).1
  have hkept : w.discover root repo d = d.kept w repo root (.folder entries) :=
    discover_eq_kept hnamed hroot hclear
  refine ⟨hkept, ?_, ?_, fun tree hnamed' h => ?_, fun names below hbelow hopen => ⟨?_, ?_⟩⟩
  · rw [hkept]
    exact (Discovery.nodup_listing hfolderNamed).filter _
  · intro g hg
    rw [hkept] at hg
    obtain ⟨names, e, hne, hpath, hbelow, hfile, -⟩ :=
      (Discovery.mem_listing_iff hfolderNamed).mp (List.mem_of_mem_filter hg)
    exact ⟨names, e, hne, hpath, hbelow, hfile⟩
  · exact discover_of_sameBelow hnamed hroot hclear hnamed' h
  · rw [hkept]
    exact (Discovery.listing_infix hfolderNamed hbelow hopen).filter _
  · intro g hg
    rw [hkept] at hg
    obtain ⟨hlisted, hkeeps⟩ := List.mem_filter.mp hg
    constructor
    · intro hblock
      obtain ⟨rest, -, hpath⟩ := Discovery.exists_descend (hfolderNamed.of_below? hbelow).1
        (List.mem_of_mem_filter hblock)
      exact ⟨rest, hpath.trans (root.descend_append names rest).symm⟩
    · rintro ⟨rest, rfl⟩
      exact List.mem_filter.mpr
        ⟨Discovery.mem_listing_descend hfolderNamed hbelow hlisted, hkeeps⟩

end Workspace

/-! ## A repository with all of it -/

namespace Depot

def blank : Entry := .file (.plain "")

/-- Files, folders one of which is ignored, and a link to a folder. -/
def entries : List (String × Entry) :=
  [("src", .folder [("gen", .folder [("g.ts", blank)]), ("b.ts", blank), ("a.ts", blank)]),
    ("node_modules", .folder [("m.ts", blank)]), ("main.ts", blank), ("alias", .link "src")]

def workspace : Workspace where
  tree := .folder [("repo", .folder entries)]
  current := []
  homes := fun _ => none

def repo : Path := { root := "/", parts := ["repo"] }

def search : Discovery := { excluded := ["src/gen"] }

theorem wellNamed : workspace.tree.WellNamed := by
  have hblank : blank.WellNamed := .file _
  refine .folder (by decide) (by decide) (List.forall_mem_singleton.mpr ?_)
  refine .folder (by decide) (by decide) ?_
  simp only [entries, List.forall_mem_cons]
  refine ⟨.folder (by decide) (by decide) ?_, .folder (by decide) (by decide) ?_, hblank, .link _,
    List.forall_mem_nil _⟩
  · simp only [List.forall_mem_cons]
    exact ⟨.folder (by decide) (by decide) (List.forall_mem_singleton.mpr hblank), hblank, hblank,
      List.forall_mem_nil _⟩
  · exact List.forall_mem_singleton.mpr hblank

theorem entry_repo : workspace.entry repo = .ok (.folder entries) := by
  refine Workspace.entry_eq_ok_iff.mpr ⟨["repo"], ?_, rfl⟩
  rw [Workspace.locate, if_neg (by decide), if_neg (by decide)]
  exact (follow_folder (by decide) (by decide) (show workspace.tree.below? ["repo"] = _ from rfl)
    []).trans (by rw [follow]; rfl)

theorem isFile_alias : workspace.isFile (repo.child "alias") = false := by
  have hlocate : workspace.locate false (repo.child "alias") = .ok ["repo", "src"] := by
    rw [Workspace.locate, if_neg (by decide), if_neg (by decide)]
    refine (follow_folder (by decide) (by decide) (show workspace.tree.below? ["repo"] = _ from rfl)
      ["alias"]).trans ?_
    refine (follow_link (by decide) (by decide)
      (show workspace.tree.below? ["repo", "alias"] = some (.link "src") from rfl)).trans ?_
    refine (follow_folder (by decide) (by decide)
      (show workspace.tree.below? ["repo", "src"] = some (.folder _) from rfl) []).trans ?_
    rw [follow]
    rfl
  rw [Bool.eq_false_iff, ne_eq, Workspace.isFile_iff]
  rintro ⟨f, hf⟩
  obtain ⟨names, hnames, hfile⟩ := Workspace.entry_eq_ok_iff.mp hf
  rw [hlocate] at hnames
  obtain rfl := Except.ok.inj hnames
  cases hfile

theorem kept_eq : search.kept workspace repo repo (.folder entries) =
    [repo.descend ["main.ts"], repo.descend ["src", "a.ts"], repo.descend ["src", "b.ts"]] := by
  have hsorted : Discovery.inOrder entries =
      [("alias", .link "src"), ("main.ts", blank), ("node_modules", .folder [("m.ts", blank)]),
        ("src", .folder [("gen", .folder [("g.ts", blank)]), ("b.ts", blank), ("a.ts", blank)])] :=
    rfl
  have halias : search.sourceAt? workspace repo ("alias", .link "src") = none := by
    rw [Discovery.sourceAt?, Entry.isFileAt, isFile_alias]
    rfl
  rw [Discovery.kept, Discovery.listing_folder, hsorted, List.filterMap_cons_none halias]
  decide +kernel

end Depot

theorem Workspace.discover_is_recursive_depot :
    Depot.workspace.tree.WellNamed ∧
    Depot.workspace.entry Depot.repo = .ok (.folder Depot.entries) ∧
    Discovery.StandsClear Depot.workspace Depot.repo Depot.repo (.folder Depot.entries) ∧
    Depot.workspace.discover Depot.repo Depot.repo Depot.search =
      [Depot.repo.descend ["main.ts"], Depot.repo.descend ["src", "a.ts"],
        Depot.repo.descend ["src", "b.ts"]] := by
  have hclear : Discovery.StandsClear Depot.workspace Depot.repo Depot.repo
      (.folder Depot.entries) := Discovery.standsClear_of_relativeTo? (Or.inl (by decide))
  have hsearch := discover_is_recursive Depot.search Depot.wellNamed Depot.entry_repo hclear
  exact ⟨Depot.wellNamed, Depot.entry_repo, hclear, hsearch.1.trans Depot.kept_eq⟩

end CodeAtlas
