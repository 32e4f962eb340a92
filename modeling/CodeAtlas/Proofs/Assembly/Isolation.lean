import CodeAtlas.Proofs.Assembly.Direction
import CodeAtlas.Proofs.Files.Removal

/-!
# Files that are not outlined

What is left of a file without an outline are the paths that lead over it. So other links must not
need it, and if it is a link itself, neither may the paths of hits.

* **`Workspace.buildGraph_without`**: the build with the file and without it.
-/

namespace CodeAtlas

def Graph.countSkipped (g : Graph) : Graph :=
  { g with metadata :=
    { g.metadata with
      filesDiscovered := g.metadata.filesDiscovered + 1
      filesSkipped := g.metadata.filesSkipped + 1 } }

theorem finish_succ (options : BuildOptions) (now : String) (a : Assembly) (rootId : Option String)
    (discovered : Nat) (enriched : Bool) :
    finish options now a rootId (discovered + 1) enriched =
      (finish options now a rootId discovered enriched).map Graph.countSkipped := by
  have hskipped : ((discovered + 1 : Nat) : Int) - a.outlines.length =
      (discovered : Int) - a.outlines.length + 1 := by omega
  unfold finish
  dsimp only
  rw [hskipped]
  split <;> rfl

/-! ## The steps of the build -/

theorem Workspace.exists_file_of_outline {w : Workspace} {g : Path} {o : Outline}
    (hg : Path.ofText g.text = g) (h : w.outline g.text = .ok (some o)) :
    ∃ s, w.file g = .ok s := by
  unfold outline at h
  dsimp only at h
  rw [hg] at h
  split at h
  · cases h
  · split at h
    · cases h
    · exact ⟨_, ‹_›⟩

namespace Assembly

variable {w : Workspace} {repo f : Path}

section Outlines

variable (hnamed : w.tree.WellNamed) (hleaf : FileLeaf w.tree f.parts) (hspares : w.SparesLinks f)

include hnamed hleaf hspares in
theorem addOutline_without {g : Path} (hg : w.Lists g) (hne : g.parts ≠ f.parts)
    (outlines : Table String Outline) :
    addOutline (w.without f) repo outlines g = addOutline w repo outlines g := by
  have htext : Path.ofText g.text = g := Path.ofText_text hg.root (hg.plain hnamed)
  have houtline : (w.without f).outline g.text = w.outline g.text := by
    unfold Workspace.outline
    dsimp only
    rw [htext, Workspace.file_without hnamed hleaf hspares hg hne]
  unfold addOutline
  rw [houtline]
  split
  · rename_i o ho
    obtain ⟨s, hs⟩ := Workspace.exists_file_of_outline htext ho
    rw [Workspace.relative_without hnamed hleaf hspares repo hg hne hs]
  · rfl

include hnamed hleaf hspares in
/-- **Outlines** are those of the other files. -/
theorem foldlM_addOutline_without (hroot : f.root = "/")
    (hparse : ∀ o, w.outline f.text ≠ .ok (some o)) {files : List Path}
    (hfiles : ∀ g ∈ files, w.Lists g) (outlines : Table String Outline) :
    (files.filter (· ≠ f)).foldlM (addOutline (w.without f) repo) outlines =
      files.foldlM (addOutline w repo) outlines := by
  induction files generalizing outlines with
  | nil => rw [List.filter_nil, List.foldlM_nil, List.foldlM_nil]
  | cons g files ih =>
    obtain ⟨hg, hfiles⟩ := List.forall_mem_cons.mp hfiles
    by_cases hgf : g = f
    · rw [List.filter_cons_of_neg (by simpa using hgf), List.foldlM_cons, hgf,
        addOutline_of_none hparse, ok_bind]
      exact ih hfiles outlines
    · have hne : g.parts ≠ f.parts := by
        intro hparts
        cases g
        cases f
        exact hgf (Path.mk.injEq .. ▸ ⟨hg.root.trans hroot.symm, hparts⟩)
      rw [List.filter_cons_of_pos (by simpa using hgf), List.foldlM_cons, List.foldlM_cons,
        addOutline_without hnamed hleaf hspares hg hne]
      exact bind_congr fun outlines => ih hfiles outlines

end Outlines

section Hits

variable {hit : Hit}
  (hpaths : ∀ p ∈ hit.paths, p.isAbsolute = true →
    (w.without f).relative repo p = w.relative repo p)

include hpaths in
theorem fileNamed_without {key : String} (hkey : key ∈ ["source_file", "target_file", "file_path"])
    (a : Assembly) :
    fileNamed (w.without f) repo a (hit.detail? key) = fileNamed w repo a (hit.detail? key) := by
  unfold fileNamed
  split
  · rfl
  · rename_i s hs
    split_ifs with hid habsolute
    · rfl
    · rw [hpaths _ (List.mem_filterMap.mpr ⟨key, hkey, by rw [hs]; rfl⟩) habsolute]
    · rfl

include hpaths in
/-- **A hit** reports the same. -/
theorem addHit_without (filter : GraphFilter) (a : Assembly) :
    addHit (w.without f) repo filter a hit = addHit w repo filter a hit := by
  have hedge : reportedEdge? (w.without f) repo filter a hit =
      reportedEdge? w repo filter a hit := by
    unfold reportedEdge? endpoint
    simp only [fileNamed_without hpaths (show "source_file" ∈ _ by simp),
      fileNamed_without hpaths (show "target_file" ∈ _ by simp)]
  unfold addHit noteFrequency reportedFrequency?
  simp only [hedge, fileNamed_without hpaths (show "file_path" ∈ _ by simp)]

end Hits

end Assembly

/-! ## The build -/

namespace Workspace

variable {w : Workspace} {repo root f : Path} {options : BuildOptions}

theorem Lists.parts_ne_nil (hf : w.Lists f) {names : List String}
    {entries : List (String × Entry)} (hfolder : w.tree.below? names = some (.folder entries)) :
    f.parts ≠ [] := by
  have htop : ∃ entries, w.tree.below? [] = some (.folder entries) := by
    cases names with
    | nil => exact ⟨entries, hfolder⟩
    | cons name names =>
      exact Entry.exists_folder (show w.tree.below? ([] ++ name :: names) = _ from hfolder)
  obtain ⟨top, htop⟩ := htop
  intro hparts
  rcases hf.entry with ⟨s, hs⟩ | ⟨⟨target, htarget⟩, -⟩
  · rw [hparts, htop] at hs
    cases hs
  · rw [hparts, htop] at htarget
    cases htarget

section Build

variable {entries : List (String × Entry)} (hnamed : w.tree.WellNamed)
  (hleaf : FileLeaf w.tree f.parts) (hspares : w.SparesLinks f) (hf : f.root = "/")
  (hroot : root.root = "/") (hheld : Held w.tree root.parts)
  (hfolder : w.entry root = .ok (.folder entries))

include hnamed hleaf hspares hf hroot hheld hfolder in
theorem assembledWith_without {hits : List Hit} (hparse : ∀ o, w.outline f.text ≠ .ok (some o))
    (hhits : ∀ hit ∈ hits, ∀ p ∈ hit.paths, p.isAbsolute = true →
      (w.without f).relative repo p = w.relative repo p) :
    (w.without f).assembledWith repo root options hits =
      w.assembledWith repo root options hits := by
  have houtlined : Assembly.outlined (w.without f) repo ((w.without f).discover root repo
        options.discovery) =
      Assembly.outlined w repo (w.discover root repo options.discovery) := by
    rw [Assembly.outlined, Assembly.outlined,
      discover_without hnamed hleaf hspares hf hroot hheld hfolder,
      Assembly.foldlM_addOutline_without hnamed hleaf hspares hf hparse fun g hg =>
        lists_of_mem_discover hnamed hroot hheld hg]
  unfold assembledWith assemble
  rw [houtlined]
  refine bind_congr fun a => ?_
  exact foldlM_congr (fun hit hmem a => Assembly.addHit_without (hhits hit hmem) _ a) a

include hnamed hleaf hspares hf hroot hheld hfolder in
theorem length_discover_without {d : Discovery} (hmem : f ∈ w.discover root repo d) :
    (w.discover root repo d).length = ((w.without f).discover root repo d).length + 1 := by
  have hfilter : (w.discover root repo d).filter (· ≠ f) = (w.discover root repo d).erase f := by
    rw [(nodup_discover hnamed hroot hheld d).erase_eq_filter]
    exact List.filter_congr fun g _ => by rw [Bool.eq_iff_iff]; simp
  rw [discover_without hnamed hleaf hspares hf hroot hheld hfolder, hfilter,
    List.length_erase_add_one hmem]

end Build

/-- **A file without an outline leaves no trace.** The graph is that without the file, but for one
more file found and skipped, if no other link needs the file, nor a path of a hit where it is a
link. -/
theorem buildGraph_without (w : Workspace) (repo : Path) (knowledge : KnowledgeSource)
    (options : BuildOptions) (now : String) {root f : Path} {entries : List (String × Entry)}
    (hnamed : w.tree.WellNamed) (hrepo : repo.isAbsolute = true)
    (hroot : w.rootAt? repo options.rootFile = .ok (some root))
    (hfolder : w.entry root = .ok (.folder entries))
    (hf : f ∈ w.discover root repo options.discovery)
    (hparse : ∀ o, w.outline f.text ≠ .ok (some o)) (hspares : w.SparesLinks f)
    (hhits : (∃ s, w.tree.below? f.parts = some (.file s)) ∨
      ∀ hits, knowledge options.search = .ok hits → ∀ hit ∈ hits, ∀ p ∈ hit.paths,
        p.isAbsolute = true → (w.without f).resolve p = w.resolve p) :
    (w.buildGraph repo knowledge options now).graph =
      ((w.without f).buildGraph repo knowledge options now).graph.map Graph.countSkipped ∧
    (w.buildGraph repo knowledge options now).searches =
      ((w.without f).buildGraph repo knowledge options now).searches := by
  obtain ⟨q, -, -, -, htop, hheld⟩ := held_of_rootAt? hrepo hroot
  have hlists := lists_of_mem_discover hnamed htop hheld hf
  have hne := hlists.parts_ne_nil (locate_of_held htop hheld hfolder).2
  have hleaf := hlists.fileLeaf hnamed hne
  have hroot' := rootAt?_without hleaf hrepo hroot hfolder
  have hisFile : w.isFile root ≠ true := by
    intro h
    obtain ⟨s, hs⟩ := isFile_iff.mp h
    rw [hfolder] at hs
    cases hs
  have hisFile' : (w.without f).isFile root ≠ true := by
    intro h
    obtain ⟨s, hs⟩ := isFile_iff.mp h
    exact hisFile (isFile_iff.mpr ⟨s, entry_of_without hleaf hs⟩)
  have hpaths : ∀ hit ∈ (knowledge options.search).toOption.getD [], ∀ p ∈ hit.paths,
      p.isAbsolute = true → (w.without f).relative repo p = w.relative repo p := by
    intro hit hhit p hp habsolute
    rcases hhits with ⟨s, hs⟩ | hhits
    · exact relative_without_file hne hs repo p
    · cases hfound : knowledge options.search with
      | error fault =>
        rw [hfound] at hhit
        exact absurd hhit List.not_mem_nil
      | ok hits =>
        rw [hfound] at hhit
        rw [relative, relative, hhits hits hfound hit hhit p hp habsolute]
  constructor
  · rw [graph_buildGraph hroot, graph_buildGraph hroot', buildFrom_eq, buildFrom_eq,
      assembledWith_without hnamed hleaf hspares hlists.root htop hheld hfolder hparse hpaths,
      length_discover_without hnamed hleaf hspares hlists.root htop hheld hfolder hf]
    cases w.assembledWith repo root options ((knowledge options.search).toOption.getD []) with
    | error e => rfl
    | ok a =>
      rw [ok_bind, ok_bind, rootIdOf_of_not_isFile hisFile, rootIdOf_of_not_isFile hisFile',
        ok_bind, ok_bind, finish_succ]
  · rw [buildGraph, hroot, buildGraph, hroot']

end Workspace

/-! ## A file that breaks off -/

namespace Spoilt

open PlainFolder (repo)

/-- Two files, and one whose reading breaks off. -/
def folder : PlainFolder where
  files := Pair.folder.files ++ [("c.ts", ⟨none, .broken⟩)]

def file : Path := repo.child "c.ts"

theorem mem_files : ("c.ts", ⟨none, .broken⟩) ∈ folder.files :=
  List.mem_append_right _ List.mem_cons_self

theorem without_file : folder.workspace.without file = Pair.folder.workspace := rfl

theorem wellNamed : folder.workspace.tree.WellNamed := by
  refine .folder (by decide) (by decide) (List.forall_mem_singleton.mpr ?_)
  refine .folder (by decide) (by decide) fun x hx => ?_
  obtain ⟨y, -, rfl⟩ := List.mem_map.mp hx
  exact .file _

theorem mem_discover : file ∈ folder.workspace.discover repo repo Pair.options.discovery := by
  have hfiles : folder.workspace.discover repo repo Pair.options.discovery =
      folder.files.map fun x => repo.child x.1 := folder.discover_eq rfl rfl rfl
  rw [hfiles]
  exact List.mem_map.mpr ⟨_, mem_files, rfl⟩

theorem outline_file (o : Outline) : folder.workspace.outline file.text ≠ .ok (some o) := by
  have hpath : Path.ofText file.text = file := by decide
  have hlanguage : languageOf? file.extension = some "typescript" := by decide
  have hfile : folder.workspace.file file = .ok ⟨none, .broken⟩ :=
    (PlainFolder.file_eq mem_files :)
  unfold Workspace.outline
  dsimp only
  rw [hpath, hlanguage]
  dsimp only
  rw [hfile]
  simp

theorem sparesLinks : folder.workspace.SparesLinks file := by
  rintro g - - ⟨target, htarget⟩
  have hmem : ([] ++ g.parts, target) ∈ folder.workspace.tree.links [] := Entry.mem_links htarget
  exact absurd hmem List.not_mem_nil

end Spoilt

/-- With the file that breaks off, the graph of the two others has one more file skipped. -/
theorem Workspace.buildGraph_without_spoilt :
    ∃ g, (Pair.folder.workspace.buildGraph PlainFolder.repo (Pair.knowing "CALLS" "b.ts" "a.ts")
        Pair.options "").graph = .ok g ∧
      (Spoilt.folder.workspace.buildGraph PlainFolder.repo (Pair.knowing "CALLS" "b.ts" "a.ts")
        Pair.options "").graph = .ok g.countSkipped := by
  obtain ⟨g, hg, -⟩ := Pair.exists_graph ("CALLS", "b.ts", "a.ts") (by decide)
  have hwithout := buildGraph_without Spoilt.folder.workspace PlainFolder.repo
    (Pair.knowing "CALLS" "b.ts" "a.ts") Pair.options "" Spoilt.wellNamed rfl
    Spoilt.folder.rootAt?_eq Spoilt.folder.entry_repo Spoilt.mem_discover Spoilt.outline_file
    Spoilt.sparesLinks (Or.inl ⟨_, PlainFolder.below_file Spoilt.mem_files⟩)
  rw [Spoilt.without_file, hg] at hwithout
  exact ⟨g, hg, hwithout.1⟩

/-! ## A link that a hit names -/

namespace Alias

open PlainFolder (repo)

/-- Two files, and a link to the first of them that is found and not outlined. -/
def workspace : Workspace where
  tree := .folder [("repo", .folder (Pair.folder.entries ++ [("f.go", .link "a.ts")]))]
  current := []
  homes := fun _ => none

def link : Path := repo.child "f.go"

theorem without_link : workspace.without link = Pair.folder.workspace := rfl

theorem wellNamed : workspace.tree.WellNamed := by
  refine .folder (by decide) (by decide) (List.forall_mem_singleton.mpr ?_)
  refine .folder (by decide) (by decide) ?_
  exact List.forall_mem_append.mpr ⟨fun x hx => by
    obtain ⟨y, -, rfl⟩ := List.mem_map.mp hx
    exact .file _, List.forall_mem_singleton.mpr (.link _)⟩

theorem locate_repo : workspace.locate false repo = .ok ["repo"] := PlainFolder.locate_folder rfl

theorem locate_link : workspace.locate false link = .ok ["repo", "a.ts"] := by
  refine Workspace.locate_eq_ok_iff.mpr ⟨by decide, by decide, ?_⟩
  refine (follow_folder (by decide) (by decide) rfl ["f.go"]).trans ?_
  refine (follow_link (by decide) (by decide) rfl).trans ?_
  exact follow_file (by decide) (by decide) rfl

theorem entry_repo : workspace.entry repo =
    .ok (.folder (Pair.folder.entries ++ [("f.go", .link "a.ts")])) :=
  Workspace.entry_eq_ok_iff.mpr ⟨_, locate_repo, rfl⟩

theorem rootAt?_eq : workspace.rootAt? repo Pair.options.rootFile = .ok (some repo) :=
  Workspace.rootAt?_of_locate (by decide) (q := {}) rfl locate_repo rfl

theorem isFile_link : workspace.isFile link = true :=
  Workspace.isFile_iff.mpr ⟨_, Workspace.entry_eq_ok_iff.mpr ⟨_, locate_link, rfl⟩⟩

theorem mem_discover : link ∈ workspace.discover repo repo Pair.options.discovery := by
  have hlists : Discovery.lists {} workspace repo link (.link "a.ts") = true := by
    unfold Discovery.lists
    dsimp only
    rw [isFile_link]
    decide
  rw [Workspace.discover, entry_repo]
  dsimp only
  rw [Discovery.walk]
  refine List.mem_append_left _ (List.mem_filterMap.mpr ⟨("f.go", .link "a.ts"), ?_, ?_⟩)
  · exact (Discovery.byName_perm _).mem_iff.mpr (List.mem_append_right _ List.mem_cons_self)
  · exact if_pos hlists

theorem outline_link (o : Outline) : workspace.outline link.text ≠ .ok (some o) := by
  have hlanguage : languageOf? (Path.ofText link.text).extension = none := by decide
  unfold Workspace.outline
  dsimp only
  rw [hlanguage]
  simp

theorem sparesLinks : workspace.SparesLinks link := by
  rintro g - hne ⟨target, htarget⟩
  have hlinks : workspace.tree.links [] = [(["repo", "f.go"], "a.ts")] := rfl
  have hmem : ([] ++ g.parts, target) ∈ workspace.tree.links [] := Entry.mem_links htarget
  rw [hlinks] at hmem
  exact absurd (congrArg Prod.fst (List.mem_singleton.mp hmem)) hne

def hit : Hit := Pair.report "CALLS" "/repo/f.go" "b.ts"

theorem assembledWith_nil :
    workspace.assembledWith repo repo Pair.options [] = .ok Pair.files := by
  have hheld := Workspace.held_of_locate rfl locate_repo
  have hlists := Workspace.lists_of_mem_discover wellNamed rfl hheld mem_discover
  have hleaf := hlists.fileLeaf wellNamed (by decide)
  have hleft : (workspace.without link).assembledWith repo repo Pair.options [] =
      workspace.assembledWith repo repo Pair.options [] :=
    Workspace.assembledWith_without wellNamed hleaf sparesLinks rfl rfl hheld entry_repo
      outline_link nofun
  rw [← hleft, without_link, Pair.assembledWith_nil]

theorem relative_link : workspace.relative repo link = .ok "a.ts" := by
  rw [Workspace.relative, Workspace.resolve_of_locate rfl locate_link]
  decide

theorem relative_missing : Pair.folder.workspace.relative repo link = .ok "f.go" := by
  have hloop : Pair.folder.workspace.locate false link ≠ .error .linkLoop := by
    have hnone : Pair.folder.workspace.tree.below? ["repo", "f.go"] = none := rfl
    have hrepo : follow Pair.folder.workspace.tree false linkBudget [] ["repo", "f.go"] =
        follow Pair.folder.workspace.tree false linkBudget ["repo"] ["f.go"] :=
      follow_folder (by decide) (by decide) rfl ["f.go"]
    rw [Workspace.locate, if_neg (by decide), if_neg (by decide)]
    change follow Pair.folder.workspace.tree false linkBudget [] ["repo", "f.go"] ≠ _
    rw [hrepo]
    exact follow_ne_linkLoop (by decide) (by simp [hnone]) (by simp [hnone])
  have hnames : Pair.folder.workspace.resolvedNames link = ["repo", "f.go"] := by decide
  have hresolve : Pair.folder.workspace.resolve link = .ok link := by
    rw [Workspace.resolve, if_neg (by decide)]
    dsimp only
    rw [hnames]
    split
    · rename_i h
      exact absurd h hloop
    · rfl
  rw [Workspace.relative, hresolve]
  decide

theorem fileNamed_source {w : Workspace} {path : String} (h : w.relative repo link = .ok path) :
    Assembly.fileNamed w repo Pair.files (hit.detail? "source_file") =
      .ok (if Pair.files.fileIds.has path then some path else none) := by
  have hvalue : (hit.detail? "source_file").bind Json.filledStr? = some "/repo/f.go" := rfl
  have hpath : Path.ofText "/repo/f.go" = link := by decide
  unfold Assembly.fileNamed
  rw [hvalue]
  dsimp only
  rw [if_neg (by decide), hpath, if_pos (by decide), h]
  rfl

theorem addHit_eq : Assembly.addHit workspace repo Pair.options.filter Pair.files hit =
    .ok { Pair.files with draft := Pair.files.draft.addEdge (Pair.call "a.ts" "b.ts") } := by
  have hsource : Assembly.endpoint workspace repo Pair.files (hit.detail? "source_file")
      (hit.detail? "source_symbol") = .ok (some (nodeId "file" "a.ts")) := by
    rw [Assembly.endpoint, fileNamed_source relative_link]
    rfl
  have hedge : Assembly.reportedEdge? workspace repo Pair.options.filter Pair.files hit =
      .ok (some (Pair.call "a.ts" "b.ts")) := by
    unfold Assembly.reportedEdge?
    rw [hsource]
    rfl
  have hfault : Pair.files.draft.weightFault? (Pair.call "a.ts" "b.ts") = none := rfl
  rw [Assembly.addHit_eq, hedge, ok_bind, Assembly.addReported_eq_ok.mpr ⟨hfault, rfl⟩]
  rfl

theorem addHit_missing :
    Assembly.addHit Pair.folder.workspace repo Pair.options.filter Pair.files hit =
      .ok Pair.files := by
  have hsource : Assembly.endpoint Pair.folder.workspace repo Pair.files
      (hit.detail? "source_file") (hit.detail? "source_symbol") = .ok none := by
    rw [Assembly.endpoint, fileNamed_source relative_missing]
    rfl
  have hedge : Assembly.reportedEdge? Pair.folder.workspace repo Pair.options.filter Pair.files
      hit = .ok none := by
    unfold Assembly.reportedEdge?
    rw [hsource]
    rfl
  rw [Assembly.addHit_eq, hedge, ok_bind]
  rfl

theorem exists_graph : ∃ g,
    (workspace.buildGraph repo (fun _ => .ok [hit]) Pair.options "").graph = .ok g ∧
      (Pair.drafted "a.ts" "b.ts").SameBare g := by
  have hlaid : ((Pair.drafted "a.ts" "b.ts").laidOut (.ofName Pair.options.layout) buildFrame
      none).isOk = true := by decide +kernel
  have hnot : workspace.isFile repo ≠ true := by
    rw [Workspace.isFile, entry_repo]
    simp
  have hassembled : workspace.assembledWith repo repo Pair.options [hit] =
      .ok { Pair.files with draft := Pair.files.draft.addEdge (Pair.call "a.ts" "b.ts") } := by
    have happend := workspace.assembledWith_append_cons repo repo Pair.options [] [] hit
    rw [List.nil_append] at happend
    rw [happend, assembledWith_nil, ok_bind, addHit_eq]
    rfl
  exact Workspace.exists_graph_of_isOk rootAt?_eq hnot rfl rfl hassembled hlaid

theorem exists_graph_missing : ∃ g,
    (Pair.folder.workspace.buildGraph repo (fun _ => .ok [hit]) Pair.options "").graph = .ok g ∧
      ((Pair.files.draft.graph "").filtered Pair.options.filter).SameBare g := by
  have hlaid : (((Pair.files.draft.graph "").filtered Pair.options.filter).laidOut
      (.ofName Pair.options.layout) buildFrame none).isOk = true := by decide +kernel
  have hassembled : Pair.folder.workspace.assembledWith repo repo Pair.options [hit] =
      .ok Pair.files := by
    have happend := Pair.folder.workspace.assembledWith_append_cons repo repo Pair.options [] [] hit
    rw [List.nil_append] at happend
    rw [happend, Pair.assembledWith_nil, ok_bind, addHit_missing]
    rfl
  exact PlainFolder.exists_graph _ rfl rfl rfl hassembled hlaid

/-- **A call that is lost with a link**, which is found and not outlined, and which a hit names. -/
theorem call_lost_without_link :
    workspace.rootAt? repo Pair.options.rootFile = .ok (some repo) ∧
    (∃ entries, workspace.entry repo = .ok (.folder entries)) ∧
    link ∈ workspace.discover repo repo Pair.options.discovery ∧
    (∀ o, workspace.outline link.text ≠ .ok (some o)) ∧ workspace.SparesLinks link ∧
    ∃ g g', (workspace.buildGraph repo (fun _ => .ok [hit]) Pair.options "").graph = .ok g ∧
      ((workspace.without link).buildGraph repo (fun _ => .ok [hit]) Pair.options "").graph =
        .ok g' ∧
      g.edges.map (fun e => (e.source, e.kind, e.target)) =
        [("file:a.ts", "calls", "file:b.ts")] ∧
      g'.edges = [] := by
  obtain ⟨g, hg, hbare⟩ := exists_graph
  obtain ⟨g', hg', hbare'⟩ := exists_graph_missing
  rw [without_link]
  refine ⟨rootAt?_eq, ⟨_, entry_repo⟩, mem_discover, outline_link, sparesLinks, g, g', hg, hg',
    ?_, ?_⟩
  · rw [hbare.2]
    decide
  · rw [hbare'.2]
    rfl

end Alias

end CodeAtlas
