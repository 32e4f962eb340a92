import Mathlib.Data.Finset.Card
import CodeAtlas.Proofs.Assembly.Collected
import CodeAtlas.Proofs.Assembly.Isolation

/-!
# How many files are parsed

Outlines are kept under the paths of their files with links followed, so a file that is listed under
two paths has one outline, and one of the paths is counted as skipped.

* **`Workspace.fileCounts_of_places`**: what the counts mean.
-/

namespace CodeAtlas

/-- Functions that tell the same elements apart have the same number of values. -/
theorem card_map_congr {α β γ : Type} [DecidableEq β] [DecidableEq γ] {f : α → β} {g : α → γ}
    {xs : List α} (h : ∀ x ∈ xs, ∀ y ∈ xs, f x = f y ↔ g x = g y) :
    (xs.map f).toFinset.card = (xs.map g).toFinset.card := by
  induction xs with
  | nil => rfl
  | cons x xs ih =>
    have hxs := ih fun y hy z hz => h y (List.mem_cons_of_mem x hy) z (List.mem_cons_of_mem x hz)
    have hx : f x ∈ (xs.map f).toFinset ↔ g x ∈ (xs.map g).toFinset := by
      simp only [List.mem_toFinset, List.mem_map]
      refine exists_congr fun y => and_congr_right fun hy => ?_
      exact h y (List.mem_cons_of_mem x hy) x List.mem_cons_self
    rw [List.map_cons, List.map_cons, List.toFinset_cons, List.toFinset_cons,
      Finset.card_insert_eq_ite, Finset.card_insert_eq_ite, hxs]
    simp only [hx]

theorem length_eraseDups {α : Type} [DecidableEq α] (xs : List α) :
    xs.eraseDups.length = xs.toFinset.card := by
  have hsame : xs.eraseDups.toFinset = xs.toFinset := by
    ext x
    simp
  rw [← hsame, List.toFinset_card_of_nodup (nodup_eraseDups xs)]

theorem card_map_eq_length_iff {α β : Type} [DecidableEq β] {f : α → β} {xs : List α}
    (hxs : xs.Nodup) :
    (xs.map f).toFinset.card = xs.length ↔ ∀ x ∈ xs, ∀ y ∈ xs, f x = f y → x = y := by
  rw [List.card_toFinset, ← List.length_map f, ← List.nodup_map_iff_inj_on hxs,
    ← List.dedup_eq_self]
  exact ⟨(List.dedup_sublist _).eq_of_length, congrArg List.length⟩

/-! ## Places -/

theorem Path.ofText_text_below {parts : List String} (hparts : ∀ q ∈ parts, PlainPart q) :
    Path.ofText (⟨"", parts⟩ : Path).text = ⟨"", parts⟩ := by
  cases parts with
  | nil => decide
  | cons part parts =>
    obtain ⟨hpart, -⟩ := List.forall_mem_cons.mp hparts
    have htext : (⟨"", part :: parts⟩ : Path).text = Text.joinWith "/" (part :: parts) := by
      change (if ("" ++ Text.joinWith "/" (part :: parts)).isEmpty then "." else _) = _
      rw [String.empty_append, Text.joinWith_isEmpty List.mem_cons_self hpart.ne_empty]
      rfl
    obtain ⟨c, cs, hcs, hc⟩ := Text.exists_first hpart.ne_empty hpart.no_slash parts
    have hrootOf : Path.rootOf (Text.joinWith "/" (part :: parts)) = "" := by
      rw [Path.rootOf, hcs]
      simp [hc]
    rw [htext, Path.ofText, hrootOf,
      Text.splitOn_joinWith (List.cons_ne_nil _ _) fun q hq => (hparts q hq).no_slash,
      filter_plainParts hparts]

namespace Workspace

/-- Where an outline is kept: at the file that the path leads to, if it is in the repository. -/
def placeIn (w : Workspace) (repo file : Path) : Path :=
  match w.locate false file with
  | .ok names => if repo.parts <+: names then { root := "/", parts := names } else file
  | .error _ => file

section Places

variable {w : Workspace} {repo file file' : Path} {names names' : List String}

theorem exists_locate (hnamed : w.tree.WellNamed) (hfile : w.Lists file)
    (h : w.hasOutline file = true) : ∃ names, w.locate false file = .ok names := by
  obtain ⟨o, ho⟩ := hasOutline_iff.mp h
  obtain ⟨f, hf⟩ :=
    exists_file_of_outline (Path.ofText_text hfile.root (hfile.plain hnamed)) ho
  obtain ⟨names, hnames, -⟩ := entry_eq_ok_iff.mp (file_eq_ok_iff.mp hf)
  exact ⟨names, hnames⟩

theorem Lists.isAbsolute (hfile : w.Lists file) : file.isAbsolute = true := by
  rw [Path.isAbsolute, hfile.root]
  rfl

theorem plain_of_locate (hnamed : w.tree.WellNamed) (hfile : w.Lists file)
    (h : w.locate false file = .ok names) : ∀ part ∈ names, PlainPart part :=
  (held_of_locate hfile.isAbsolute h).plain hnamed

theorem relative_of_locate (hrepo : repo.root = "/") (hfile : w.Lists file)
    (h : w.locate false file = .ok names) :
    w.relative repo file = .ok (if repo.parts <+: names then
      (⟨"", names.drop repo.parts.length⟩ : Path).text else file.text) := by
  rw [relative, resolve_of_locate hfile.isAbsolute h]
  dsimp only
  rw [Path.relativeTo?, hrepo, beq_self_eq_true, Bool.true_and]
  simp only [List.isPrefixOf_iff_prefix]
  split_ifs <;> rfl

theorem placeIn_of_locate (h : w.locate false file = .ok names) :
    w.placeIn repo file = if repo.parts <+: names then ⟨"/", names⟩ else file := by
  rw [placeIn, h]

theorem ne_place_of_outside (hfile : w.Lists file) (h : w.locate false file = .ok names)
    (h' : w.locate false file' = .ok names') (hin : repo.parts <+: names)
    (hout : ¬ repo.parts <+: names') : (⟨"/", names⟩ : Path) ≠ file' := by
  rintro rfl
  -- the place is free of links, so it leads to itself
  have hheld := held_of_locate hfile.isAbsolute h
  unfold locate at h'
  split_ifs at h'
  rw [start_of_isAbsolute rfl, hheld.follow_eq] at h'
  exact hout (Except.ok.inj h' ▸ hin)

theorem text_ne_of_outside (hnamed : w.tree.WellNamed) (hfile : w.Lists file)
    (hfile' : w.Lists file') (h : w.locate false file = .ok names) (k : ℕ) :
    (⟨"", names.drop k⟩ : Path).text ≠ file'.text := by
  intro htext
  have hbelow : (⟨"", names.drop k⟩ : Path) = file' := by
    rw [← Path.ofText_text_below fun q hq =>
      plain_of_locate hnamed hfile h q (List.mem_of_mem_drop hq), htext,
      Path.ofText_text hfile'.root (hfile'.plain hnamed)]
  have hroot : "" = "/" := by rw [← hfile'.root, ← hbelow]
  exact absurd hroot (by decide)

/-- **Two files have one path in the repository** if they have one place. -/
theorem relative_eq_iff (hnamed : w.tree.WellNamed) (hrepo : repo.root = "/")
    (hfile : w.Lists file) (hfile' : w.Lists file') (h : w.locate false file = .ok names)
    (h' : w.locate false file' = .ok names') :
    w.relative repo file = w.relative repo file' ↔ w.placeIn repo file = w.placeIn repo file' := by
  rw [relative_of_locate hrepo hfile h, relative_of_locate hrepo hfile' h', placeIn_of_locate h,
    placeIn_of_locate h', Except.ok.injEq]
  by_cases hin : repo.parts <+: names <;> by_cases hin' : repo.parts <+: names'
  · rw [if_pos hin, if_pos hin', if_pos hin, if_pos hin']
    obtain ⟨rest, rfl⟩ := hin
    obtain ⟨rest', rfl⟩ := hin'
    rw [List.drop_left, List.drop_left]
    have hplain := plain_of_locate hnamed hfile h
    have hplain' := plain_of_locate hnamed hfile' h'
    constructor
    · intro htext
      have hrest : (⟨"", rest⟩ : Path) = ⟨"", rest'⟩ := by
        rw [← Path.ofText_text_below (List.forall_mem_append.mp hplain).2, htext,
          Path.ofText_text_below (List.forall_mem_append.mp hplain').2]
      rw [(Path.mk.inj hrest).2]
    · intro hplace
      rw [List.append_cancel_left (Path.mk.inj hplace).2]
  · rw [if_pos hin, if_neg hin', if_pos hin, if_neg hin']
    exact iff_of_false (text_ne_of_outside hnamed hfile hfile' h _)
      (ne_place_of_outside hfile h h' hin hin')
  · rw [if_neg hin, if_pos hin', if_neg hin, if_pos hin']
    exact iff_of_false (text_ne_of_outside hnamed hfile' hfile h' _).symm
      (ne_place_of_outside hfile' h' h hin' hin).symm
  · rw [if_neg hin, if_neg hin', if_neg hin, if_neg hin']
    refine ⟨fun htext => ?_, congrArg Path.text⟩
    rw [← Path.ofText_text hfile.root (hfile.plain hnamed), htext,
      Path.ofText_text hfile'.root (hfile'.plain hnamed)]

theorem placeIn_eq_iff (hfile : w.Lists file) (hfile' : w.Lists file')
    (h : w.locate false file = .ok names) (h' : w.locate false file' = .ok names') :
    w.placeIn repo file = w.placeIn repo file' ↔
      file = file' ∨ names = names' ∧ repo.parts <+: names := by
  constructor
  · intro hplace
    rw [placeIn_of_locate h, placeIn_of_locate h'] at hplace
    by_cases hin : repo.parts <+: names <;> by_cases hin' : repo.parts <+: names'
    · rw [if_pos hin, if_pos hin'] at hplace
      exact Or.inr ⟨(Path.mk.inj hplace).2, hin⟩
    · rw [if_pos hin, if_neg hin'] at hplace
      exact absurd hplace (ne_place_of_outside hfile h h' hin hin')
    · rw [if_neg hin, if_pos hin'] at hplace
      exact absurd hplace.symm (ne_place_of_outside hfile' h' h hin' hin)
    · rw [if_neg hin, if_neg hin'] at hplace
      exact Or.inl hplace
  · rintro (rfl | ⟨rfl, hin⟩)
    · rfl
    · rw [placeIn_of_locate h, placeIn_of_locate h', if_pos hin, if_pos hin]

end Places

end Workspace

/-! ## Counts -/

theorem Assembly.GrowsInto.outlines_eq {a a' : Assembly} (h : GrowsInto a a') :
    a'.outlines = a.outlines := by
  induction h with
  | refl => rfl
  | tail _ hstep ih => cases hstep <;> exact ih

theorem counts_of_finish {options : BuildOptions} {now : String} {a : Assembly}
    {rootId : Option String} {discovered : ℕ} {enriched : Bool} {g : Graph}
    (h : finish options now a rootId discovered enriched = .ok g) :
    g.metadata.filesDiscovered = discovered ∧ g.metadata.filesParsed = a.outlines.length ∧
      g.metadata.filesSkipped = (discovered : ℤ) - a.outlines.length := by
  unfold finish at h
  dsimp only at h
  split at h
  · cases h
  · obtain rfl := Except.ok.inj h
    exact ⟨rfl, rfl, rfl⟩

namespace Workspace

variable {w : Workspace} {repo root : Path} {knowledge : KnowledgeSource} {options : BuildOptions}
  {now : String} {g : Graph}

/-- The counts of a build: files found, different paths with an outline, and the rest. -/
theorem exists_counts (hroot : w.rootAt? repo options.rootFile = .ok (some root))
    (hg : (w.buildGraph repo knowledge options now).graph = .ok g) :
    ∃ paths, ((w.discover root repo options.discovery).filter
          w.hasOutline).mapM (w.relative repo) = .ok paths ∧
      g.metadata.filesDiscovered = (w.discover root repo options.discovery).length ∧
      g.metadata.filesParsed = paths.toFinset.card ∧
      g.metadata.filesParsed + g.metadata.filesSkipped = g.metadata.filesDiscovered := by
  have hmeets := buildFrom_meets w repo root (knowledge options.search) options now
  obtain ⟨a₀, a, rootId, enriched, h₀, hgrow, hfinish⟩ :=
    hmeets.of_eq_ok ((graph_buildGraph hroot).symm.trans hg)
  obtain ⟨hdiscovered, hparsed, hskipped⟩ := counts_of_finish hfinish
  rw [hgrow.outlines_eq, a₀.outlines_addFiles] at hparsed hskipped
  obtain ⟨paths, hpaths, hkeys⟩ := bind_eq_ok.mp (Assembly.parsedPaths_of_outlined h₀)
  have hlength : a₀.outlines.length = paths.toFinset.card := by
    rw [← length_eraseDups, Except.ok.inj hkeys, Table.keys, List.length_map]
  rw [hlength] at hparsed hskipped
  exact ⟨paths, hpaths, hdiscovered, hparsed, by omega⟩

section Listed

variable {files : List Path} (hnamed : w.tree.WellNamed) (hlists : ∀ f ∈ files, w.Lists f)

include hnamed hlists in
theorem card_paths (hrepo : repo.root = "/") {paths : List String}
    (hpaths : (files.filter w.hasOutline).mapM (w.relative repo) = .ok paths) :
    paths.toFinset.card = ((files.filter w.hasOutline).map (w.placeIn repo)).toFinset.card := by
  have hlocated : ∀ f ∈ files.filter w.hasOutline, w.Lists f ∧
      ∃ names, w.locate false f = .ok names := fun f hf => by
    obtain ⟨hmem, hhas⟩ := List.mem_filter.mp hf
    exact ⟨hlists f hmem, exists_locate hnamed (hlists f hmem) hhas⟩
  have hseen : ∀ f ∈ files.filter w.hasOutline,
      w.relative repo f = .ok ((w.relative repo f).toOption.getD "") := fun f hf => by
    obtain ⟨hf, names, hnames⟩ := hlocated f hf
    rw [relative_of_locate hrepo hf hnames]
    rfl
  obtain rfl := Except.ok.inj (hpaths.symm.trans (mapM_eq_ok hseen))
  refine card_map_congr fun f hf f' hf' => ?_
  rw [← Except.ok.injEq (ε := BuildError), ← hseen f hf, ← hseen f' hf']
  obtain ⟨hf, names, hnames⟩ := hlocated f hf
  obtain ⟨hf', names', hnames'⟩ := hlocated f' hf'
  exact relative_eq_iff hnamed hrepo hf hf' hnames hnames'

include hnamed hlists in
/-- All have places of their own just if no two lead to one file in the repository. -/
theorem card_places_iff (hnodup : files.Nodup) :
    ((files.filter w.hasOutline).map (w.placeIn repo)).toFinset.card =
        (files.filter w.hasOutline).length ↔
      ∀ f ∈ files, ∀ f' ∈ files, w.hasOutline f = true → w.hasOutline f' = true →
        ∀ names, w.locate false f = .ok names → w.locate false f' = .ok names →
          repo.parts <+: names → f = f' := by
  rw [card_map_eq_length_iff (hnodup.filter _)]
  constructor
  · intro hinj f hf f' hf' hhas hhas' names h h' hin
    refine hinj f (List.mem_filter.mpr ⟨hf, hhas⟩) f' (List.mem_filter.mpr ⟨hf', hhas'⟩) ?_
    exact (placeIn_eq_iff (hlists f hf) (hlists f' hf') h h').mpr (Or.inr ⟨rfl, hin⟩)
  · intro hapart f hf f' hf' hplace
    obtain ⟨hf, hhas⟩ := List.mem_filter.mp hf
    obtain ⟨hf', hhas'⟩ := List.mem_filter.mp hf'
    obtain ⟨names, h⟩ := exists_locate hnamed (hlists f hf) hhas
    obtain ⟨names', h'⟩ := exists_locate hnamed (hlists f' hf') hhas'
    rcases (placeIn_eq_iff (hlists f hf) (hlists f' hf') h h').mp hplace with heq | ⟨rfl, hin⟩
    · exact heq
    · exact hapart f hf f' hf' hhas hhas' names h h' hin

end Listed

/-- **What the counts mean.** Parsed are the different places of listed paths with an outline, and
skipped is the rest. So they count the files with and without an outline just if no two such paths
lead to one file. -/
theorem fileCounts_of_places (w : Workspace) (repo : Path) (knowledge : KnowledgeSource)
    (options : BuildOptions) (now : String) {root : Path} {g : Graph} (hnamed : w.tree.WellNamed)
    (hrepo : repo.root = "/") (hroot : w.rootAt? repo options.rootFile = .ok (some root))
    (hg : (w.buildGraph repo knowledge options now).graph = .ok g) :
    ∃ files, files = w.discover root repo options.discovery ∧
      g.metadata.filesDiscovered = files.length ∧
      g.metadata.filesParsed =
        ((files.filter w.hasOutline).map (w.placeIn repo)).toFinset.card ∧
      g.metadata.filesParsed + g.metadata.filesSkipped = g.metadata.filesDiscovered ∧
      (g.metadata.filesParsed = files.countP w.hasOutline ∧
          g.metadata.filesSkipped = files.countP (fun f => !w.hasOutline f) ↔
        ∀ f ∈ files, ∀ f' ∈ files, w.hasOutline f = true → w.hasOutline f' = true →
          ∀ names, w.locate false f = .ok names → w.locate false f' = .ok names →
            repo.parts <+: names → f = f') := by
  have hrepo' : repo.isAbsolute = true := by
    rw [Path.isAbsolute, hrepo]
    rfl
  obtain ⟨-, -, -, -, hroot', hheld⟩ := held_of_rootAt? hrepo' hroot
  obtain ⟨paths, hpaths, hdiscovered, hparsed, hsum⟩ := exists_counts hroot hg
  generalize hfiles : w.discover root repo options.discovery = files at *
  have hlists : ∀ f ∈ files, w.Lists f := fun f hf =>
    lists_of_mem_discover hnamed hroot' hheld (hfiles ▸ hf)
  have hnodup : files.Nodup := hfiles ▸ nodup_discover hnamed hroot' hheld _
  rw [card_paths hnamed hlists hrepo hpaths] at hparsed
  refine ⟨files, rfl, hdiscovered, hparsed, hsum, ?_⟩
  rw [← card_places_iff hnamed hlists hnodup, ← List.countP_eq_length_filter]
  have hsplit := files.length_eq_countP_add_countP w.hasOutline
  simp only [Bool.not_eq_true, Bool.decide_eq_false] at hsplit
  omega

end Workspace

/-! ## A file that is listed twice -/

namespace Twin

open PlainFolder (repo)

/-- A file, and a link to it with the ending of a source file. -/
def entries : List (String × Entry) :=
  [("a.ts", .file ⟨none, .ready { path := "", language := "typescript" }⟩), ("b.ts", .link "a.ts")]

def workspace : Workspace where
  tree := .folder [("repo", .folder entries)]
  current := []
  homes := fun _ => none

def files : List Path := [repo.child "a.ts", repo.child "b.ts"]

theorem wellNamed : workspace.tree.WellNamed := by
  refine .folder (by decide) (by decide) (List.forall_mem_singleton.mpr ?_)
  refine .folder (by decide) (by decide) ?_
  exact List.forall_mem_cons.mpr ⟨.file _, List.forall_mem_singleton.mpr (.link _)⟩

theorem locate_repo : workspace.locate false repo = .ok ["repo"] := PlainFolder.locate_folder rfl

theorem locate_eq : ∀ f ∈ files, workspace.locate false f = .ok ["repo", "a.ts"] := by
  refine List.forall_mem_cons.mpr ⟨?_, List.forall_mem_singleton.mpr ?_⟩
  · refine Workspace.locate_eq_ok_iff.mpr ⟨by decide, by decide, ?_⟩
    refine (follow_folder (by decide) (by decide) rfl ["a.ts"]).trans ?_
    exact follow_file (by decide) (by decide) rfl
  · refine Workspace.locate_eq_ok_iff.mpr ⟨by decide, by decide, ?_⟩
    refine (follow_folder (by decide) (by decide) rfl ["b.ts"]).trans ?_
    refine (follow_link (by decide) (by decide) rfl).trans ?_
    exact follow_file (by decide) (by decide) rfl

theorem entry_eq {f : Path} (hf : f ∈ files) : workspace.entry f =
    .ok (.file ⟨none, .ready { path := "", language := "typescript" }⟩) :=
  Workspace.entry_eq_ok_iff.mpr ⟨_, locate_eq f hf, rfl⟩

theorem rootAt?_eq : workspace.rootAt? repo Pair.options.rootFile = .ok (some repo) :=
  Workspace.rootAt?_of_locate (by decide) (q := {}) rfl locate_repo rfl

theorem entry_repo : workspace.entry repo = .ok (.folder entries) :=
  Workspace.entry_eq_ok_iff.mpr ⟨_, locate_repo, rfl⟩

theorem discover_eq : workspace.discover repo repo Pair.options.discovery =
      files := by
  have hsorted : Discovery.byName entries = entries := List.mergeSort_of_pairwise (by decide)
  have hlink : workspace.isFile (repo.child "b.ts") = true :=
    Workspace.isFile_iff.mpr ⟨_, entry_eq (by decide)⟩
  have hfiles : Discovery.filesIn {} workspace repo repo entries = files := by
    unfold Discovery.filesIn Discovery.lists
    dsimp only [entries, List.filterMap]
    rw [hlink]
    decide
  have hfolders : entries.filterMap (Discovery.folderAt? {} repo repo) = [] := rfl
  rw [Workspace.discover, entry_repo]
  change Discovery.walk {} workspace repo [(repo, entries)] = files
  rw [Discovery.walk, hsorted, hfiles, hfolders, List.append_nil, Discovery.walk, List.append_nil]

theorem outline_eq {f : Path} (hf : f ∈ files) :
    workspace.outline f.text = .ok (some { path := f.text, language := "typescript" }) := by
  have hfile := Workspace.file_eq_ok_iff.mpr (entry_eq hf)
  have hpath : ∀ f ∈ files, Path.ofText f.text = f ∧
      languageOf? f.extension = some "typescript" := by decide
  obtain ⟨htext, hlanguage⟩ := hpath f hf
  unfold Workspace.outline
  dsimp only
  rw [htext, hlanguage, hfile]

theorem relative_eq {f : Path} (hf : f ∈ files) : workspace.relative repo f = .ok "a.ts" := by
  have habsolute : ∀ f ∈ files, f.isAbsolute = true := by decide
  rw [Workspace.relative, Workspace.resolve_of_locate (habsolute f hf) (locate_eq f hf)]
  rfl

def outlines : Table String Outline :=
  [("a.ts", { path := "/repo/b.ts", language := "typescript" })]

theorem outlined_eq :
    Assembly.outlined workspace repo files = .ok { outlines := outlines } := by
  have hadd {f : Path} (hf : f ∈ files) (t : Table String Outline) :
      Assembly.addOutline workspace repo t f =
        .ok (t.put "a.ts" { path := f.text, language := "typescript" }) := by
    rw [Assembly.addOutline_of_some (outline_eq hf), relative_eq hf]
    rfl
  rw [Assembly.outlined, files, List.foldlM_cons, hadd (by decide), ok_bind, List.foldlM_cons,
    hadd (by decide), ok_bind]
  rfl

theorem exists_graph :
    ∃ g, (workspace.buildGraph repo (fun _ => .ok []) Pair.options "").graph = .ok g := by
  have hassembled : workspace.assembledWith repo repo Pair.options [] =
      .ok (((({ outlines := outlines } : Assembly).addFiles Pair.options.filter).addSymbols
        Pair.options.filter).addImports Pair.options) := by
    rw [Workspace.assembledWith, discover_eq, assemble, outlined_eq]
    rfl
  have hfolder : workspace.isFile repo ≠ true := by
    rw [Workspace.isFile, entry_repo]
    decide
  obtain ⟨g, hg, -⟩ : ∃ g, (workspace.buildGraph repo (fun _ => .ok []) Pair.options "").graph =
      .ok g ∧ _ :=
    Workspace.exists_graph_of_isOk rootAt?_eq hfolder rfl rfl hassembled (by decide +kernel)
  exact ⟨g, hg⟩

theorem hasOutline {f : Path} (hf : f ∈ files) : workspace.hasOutline f = true :=
  Workspace.hasOutline_iff.mpr ⟨_, outline_eq hf⟩

end Twin

theorem Workspace.fileCounts_of_places_twin :
    ∃ g, (Twin.workspace.buildGraph PlainFolder.repo (fun _ => .ok []) Pair.options "").graph =
        .ok g ∧
      g.metadata.filesDiscovered = 2 ∧
      ¬ (g.metadata.filesParsed = 2 ∧ g.metadata.filesSkipped = 0) := by
  obtain ⟨g, hg⟩ := Twin.exists_graph
  obtain ⟨files, rfl, hdiscovered, -, -, hcounts⟩ := Twin.workspace.fileCounts_of_places
    PlainFolder.repo (fun _ => .ok []) Pair.options "" Twin.wellNamed rfl Twin.rootAt?_eq hg
  rw [Twin.discover_eq] at hdiscovered hcounts
  refine ⟨g, hg, hdiscovered, fun hall => ?_⟩
  have hhas : Twin.files.countP Twin.workspace.hasOutline = 2 :=
    List.countP_eq_length.mpr fun f hf => Twin.hasOutline hf
  have hnone : Twin.files.countP (fun f => !Twin.workspace.hasOutline f) = 0 :=
    List.countP_eq_zero.mpr fun f hf => by simp [Twin.hasOutline hf]
  rw [hhas, hnone] at hcounts
  -- the file and the link are different paths that lead to one file
  have hsame := hcounts.mp hall (PlainFolder.repo.child "a.ts") (by decide)
    (PlainFolder.repo.child "b.ts") (by decide) (Twin.hasOutline (by decide))
    (Twin.hasOutline (by decide)) ["repo", "a.ts"] (Twin.locate_eq _ (by decide))
    (Twin.locate_eq _ (by decide)) (by decide)
  exact absurd hsame (by decide)

/-- **A file that is counted as skipped**, though both paths that are found have an outline. -/
theorem Twin.twin_counted_as_skipped :
    ∃ g, (workspace.buildGraph PlainFolder.repo (fun _ => .ok []) Pair.options "").graph = .ok g ∧
      workspace.discover PlainFolder.repo PlainFolder.repo Pair.options.discovery =
          files ∧
      (∀ f ∈ files, workspace.hasOutline f = true) ∧
      g.metadata.filesDiscovered = 2 ∧ g.metadata.filesParsed = 1 ∧
      g.metadata.filesSkipped = 1 := by
  obtain ⟨g, hg⟩ := exists_graph
  obtain ⟨paths, hpaths, hdiscovered, hparsed, hsum⟩ := Workspace.exists_counts rootAt?_eq hg
  rw [discover_eq] at hpaths hdiscovered
  rw [List.filter_eq_self.mpr fun f hf => hasOutline hf,
    mapM_eq_ok (g := fun _ => "a.ts") fun f hf => relative_eq hf] at hpaths
  obtain rfl := Except.ok.inj hpaths
  have hone : g.metadata.filesParsed = 1 := hparsed
  have htwo : g.metadata.filesDiscovered = 2 := hdiscovered
  exact ⟨g, hg, discover_eq, fun f hf => hasOutline hf, htwo, hone, by omega⟩

end CodeAtlas
