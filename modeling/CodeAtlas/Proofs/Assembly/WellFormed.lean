import CodeAtlas.Proofs.Assembly.Settled
import CodeAtlas.Proofs.Files.PlainFolder
import CodeAtlas.Proofs.Layout.Placement

/-!
# The graph of a repository is well formed

A layout places every node of a graph that fits a filter and changes nothing else. Without a least
score the finished graph is the filtered draft but for scores and places.

* **`Workspace.buildGraph_wellFormed`**: what the build of a repository returns.
-/

namespace CodeAtlas

/-! ## The finished graph -/

theorem Node.Blurs.placed {view : Node → Node} (hv : Node.Blurs view) {nodes nodes' : List Node}
    (h : List.Forall₂ Node.PlacedAs nodes nodes') : nodes'.map view = nodes.map view := by
  induction h with
  | nil => rfl
  | cons hn _ ih =>
    obtain ⟨p, rfl⟩ := hn
    rw [List.map_cons, List.map_cons, ih, hv.place]

namespace Graph

variable {g g' : Graph}

/-- The graph fits the filter, and every node is placed. -/
structure WellFormed (g : Graph) (f : GraphFilter) : Prop extends g.Fits f where
  placed : ∀ n ∈ g.nodes, n.position.isSome = true

theorem placedAs_isSome {nodes nodes' : List Node}
    (h : List.Forall₂ Node.PlacedAs nodes nodes') : ∀ n ∈ nodes', n.position.isSome = true := by
  induction h with
  | nil => exact fun n hn => absurd hn List.not_mem_nil
  | cons hn _ ih =>
    obtain ⟨p, rfl⟩ := hn
    exact List.forall_mem_cons.mpr ⟨rfl, ih⟩

/-- **A layout** makes a graph that fits a filter well formed. -/
theorem Fits.laidOut {f : GraphFilter} (hg : g.Fits f) {kind : LayoutKind} {frame : Frame Amount}
    {root : Option String} (h : g.laidOut kind frame root = .ok g') : g'.WellFormed f := by
  obtain ⟨hplaced, hedges, hmeta⟩ := laidOut_placed hg.ids h
  have hbare : g.SameBare g' := ⟨Node.blurs_bare.placed hplaced, hedges⟩
  have hlen : g'.nodes.length = g.nodes.length := hplaced.length_eq.symm
  refine ⟨⟨hbare.settled hg.toSettled, ?_, ?_, ?_, ?_, ?_⟩, ?_⟩
  · rw [hedges, hbare.ids]
    exact hg.ends
  · intro n' hn'
    obtain ⟨n, hn, -, hkind, -⟩ := hbare.exists_node hn'
    exact hkind ▸ hg.nodeKinds n hn
  · rw [hedges]
    exact hg.edgeKinds
  · rw [hmeta, hlen]
    exact hg.totalNodes
  · rw [hmeta, hedges]
    exact hg.totalEdges
  · exact placedAs_isSome hplaced

end Graph

section Finish

variable {a : Assembly} {options : BuildOptions} {now : String} {rootId : Option String}
  {discovered : Nat} {enriched : Bool} {g : Graph}

/-- The finished graph is the scored, filtered and placed one, but for how it came about. -/
theorem exists_laidOut_of_finish
    (h : finish options now a rootId discovered enriched = .ok g) :
    ∃ placed, ((a.draft.graph now).scored.filtered options.filter).laidOut
        (.ofName options.layout) buildFrame rootId = .ok placed ∧
      g.nodes = placed.nodes ∧ g.edges = placed.edges ∧
      g.metadata.totalNodes = placed.metadata.totalNodes ∧
      g.metadata.totalEdges = placed.metadata.totalEdges := by
  unfold finish at h
  dsimp only at h
  split at h
  · cases h
  · rename_i placed hplaced
    obtain rfl := Except.ok.inj h
    exact ⟨placed, hplaced, rfl, rfl, rfl, rfl⟩

theorem Draft.Sound.wellFormed_finish (ha : a.draft.Sound)
    (h : finish options now a rootId discovered enriched = .ok g) :
    g.WellFormed options.filter := by
  obtain ⟨placed, hplaced, hnodes, hedges, htotals⟩ := exists_laidOut_of_finish h
  have hscored := (Graph.sameBare_scored _).settled (ha.settled now)
  have hwell := (hscored.filtered options.filter).laidOut hplaced
  obtain ⟨nodes, edges, metadata⟩ := g
  obtain rfl : nodes = placed.nodes := hnodes
  obtain rfl : edges = placed.edges := hedges
  exact ⟨⟨⟨hwell.ids, hwell.edgeIds, hwell.children⟩, hwell.ends, hwell.nodeKinds,
    hwell.edgeKinds, htotals.1.trans hwell.totalNodes, htotals.2.trans hwell.totalEdges⟩,
    hwell.placed⟩

theorem Draft.Sound.placed_finish (ha : a.draft.Sound)
    (h : finish options now a rootId discovered enriched = .ok g) :
    List.Forall₂ Node.PlacedAs ((a.draft.graph now).scored.filtered options.filter).nodes g.nodes ∧
      g.edges = ((a.draft.graph now).scored.filtered options.filter).edges := by
  obtain ⟨placed, hplaced, hnodes, hedges, -⟩ := exists_laidOut_of_finish h
  have hscored := (Graph.sameBare_scored _).settled (ha.settled now)
  obtain ⟨hforall, hedges', -⟩ :=
    Graph.laidOut_placed (hscored.filtered options.filter).ids hplaced
  exact ⟨hnodes ▸ hforall, hedges.trans hedges'⟩

/-- Without a least score the finish changes nothing of the nodes that the view shows. -/
theorem Node.Blurs.finish {view : Node → Node} (hv : Node.Blurs view) (ha : a.draft.Sound)
    (hf : options.filter.threshold = none)
    (h : CodeAtlas.finish options now a rootId discovered enriched = .ok g) :
    g.nodes.map view = ((a.draft.graph now).filtered options.filter).nodes.map view :=
  (hv.placed (ha.placed_finish h).1).trans (hv.filtered hf (hv.scored _))

/-- Without a least score the finished graph is the filtered draft, scored and placed. -/
theorem Draft.Sound.sameBare_finish (ha : a.draft.Sound) (hf : options.filter.threshold = none)
    (h : finish options now a rootId discovered enriched = .ok g) :
    ((a.draft.graph now).filtered options.filter).SameBare g := by
  have hfiltered := (Graph.sameBare_scored (a.draft.graph now)).filtered hf
  exact ⟨Node.blurs_bare.finish ha hf h, (ha.placed_finish h).2.trans hfiltered.2⟩

/-- Without a least score the finish succeeds if the filtered draft can be laid out. -/
theorem exists_finish (hf : options.filter.threshold = none) {placed : Graph}
    (h : ((a.draft.graph now).filtered options.filter).laidOut (.ofName options.layout) buildFrame
      rootId = .ok placed) (discovered : Nat) (enriched : Bool) :
    ∃ g, finish options now a rootId discovered enriched = .ok g := by
  have hfiltered := (Graph.sameBare_scored (a.draft.graph now)).filtered hf
  obtain ⟨placed', hplaced'⟩ := Graph.exists_laidOut_congr hfiltered.ids hfiltered.2 h
  unfold finish
  dsimp only
  rw [hplaced']
  exact ⟨_, rfl⟩

end Finish

namespace Workspace

variable {w : Workspace} {repo root : Path} {knowledge : KnowledgeSource} {options : BuildOptions}
  {now : String} {hits : List Hit}

theorem graph_buildGraph (hroot : w.rootAt? repo options.rootFile = .ok (some root)) :
    (w.buildGraph repo knowledge options now).graph =
      buildFrom w repo root (knowledge options.search) options now := by
  rw [buildGraph, hroot]

variable {a : Assembly} {g : Graph}

theorem exists_growth_of_buildGraph (hroot : w.rootAt? repo options.rootFile = .ok (some root))
    (hg : (w.buildGraph repo knowledge options now).graph = .ok g) :
    ∃ a₀ a rootId discovered enriched,
      Assembly.outlined w repo (w.discover root repo options.discovery) = .ok a₀ ∧
      a₀.draft = {} ∧ Assembly.GrowsInto (a₀.addFiles options.filter) a ∧ a.draft.Sound ∧
      finish options now a rootId discovered enriched = .ok g := by
  have hmeets := buildFrom_meets w repo root (knowledge options.search) options now
  obtain ⟨a₀, a, rootId, enriched, h₀, hgrow, hfinish⟩ :=
    hmeets.of_eq_ok ((graph_buildGraph hroot).symm.trans hg)
  have hfresh : a₀.draft = {} := by
    rw [(Assembly.outlined_meets w repo _).of_eq_ok h₀]
  have hsound := hgrow.sound (Assembly.sound_addFiles _ (hfresh ▸ Draft.Sound.fresh))
  exact ⟨a₀, a, rootId, _, enriched, h₀, hfresh, hgrow, hsound, hfinish⟩

/-- **The graph of a repository is well formed**, if the root is there. None is returned only where
links lead in a circle or a number cannot be computed. -/
theorem buildGraph_wellFormed (w : Workspace) (repo : Path) (knowledge : KnowledgeSource)
    (options : BuildOptions) (now : String) {root : Path}
    (hroot : w.rootAt? repo options.rootFile = .ok (some root)) :
    (∀ g, (w.buildGraph repo knowledge options now).graph = .ok g →
      g.WellFormed options.filter) ∧
    (∀ e, (w.buildGraph repo knowledge options now).graph = .error e → w.Stops e) := by
  refine ⟨fun g hg => ?_, fun e he => ?_⟩
  · obtain ⟨a₀, a, rootId, discovered, enriched, -, -, -, hsound, hfinish⟩ :=
      exists_growth_of_buildGraph hroot hg
    exact hsound.wellFormed_finish hfinish
  · have hmeets := buildFrom_meets w repo root (knowledge options.search) options now
    exact hmeets.of_eq_error ((graph_buildGraph hroot).symm.trans he)

/-! ## Builds with hits -/

/-- The assembly of the files below a root and of hits. -/
def assembledWith (w : Workspace) (repo root : Path) (options : BuildOptions) (hits : List Hit) :
    Except BuildError Assembly := do
  let a ← assemble w repo options (w.discover root repo options.discovery)
  hits.foldlM (Assembly.addHit w repo options.filter) a

theorem assembledWith_grows (ha : w.assembledWith repo root options hits = .ok a) :
    ∃ a₀ : Assembly, a₀.draft = {} ∧ Assembly.GrowsInto (a₀.addFiles options.filter) a := by
  obtain ⟨c, hc, ha⟩ := bind_eq_ok.mp ha
  obtain ⟨a₀, h₀, hc⟩ := bind_eq_ok.mp hc
  obtain rfl := Except.ok.inj hc
  refine ⟨a₀, by rw [(Assembly.outlined_meets w repo _).of_eq_ok h₀], ?_⟩
  refine ((Assembly.growsInto_addSymbols options.filter _).trans
    (Assembly.growsInto_addImports options _)).trans ?_
  refine Meets.of_eq_ok (Q := w.Stops) (Meets.foldlM (fun b hb hit => ?_) .refl hits) ha
  exact (Assembly.addHit_meets w repo options.filter b hit).imp fun c hc => hb.trans hc

theorem assembledWith_sound (ha : w.assembledWith repo root options hits = .ok a) :
    a.draft.Sound := by
  obtain ⟨a₀, hfresh, hgrow⟩ := assembledWith_grows ha
  exact hgrow.sound (Assembly.sound_addFiles _ (hfresh ▸ Draft.Sound.fresh))

/-- A search that fails counts as one that finds nothing, but for what is noted of it. -/
theorem buildFrom_eq (w : Workspace) (repo root : Path) (options : BuildOptions) (now : String)
    (found : Except SearchFault (List Hit)) :
    buildFrom w repo root found options now =
      w.assembledWith repo root options (found.toOption.getD []) >>= fun a =>
        rootIdOf w repo root a >>= fun rootId => finish options now a rootId
          (w.discover root repo options.discovery).length
          found.isOk := by
  cases found with
  | error fault =>
    simp only [buildFrom, assembledWith, enrich, bind_assoc, Except.toOption, Option.getD_none,
      List.foldlM_nil, pure_bind, ok_bind]
    rfl
  | ok hits =>
    simp only [buildFrom, assembledWith, enrich, bind_assoc, pure_bind, Except.toOption,
      Option.getD_some]
    rfl

theorem buildFrom_hits (w : Workspace) (repo root : Path) (options : BuildOptions) (now : String)
    (hits : List Hit) :
    buildFrom w repo root (.ok hits) options now =
      w.assembledWith repo root options hits >>= fun a =>
        rootIdOf w repo root a >>= fun rootId => finish options now a rootId
          (w.discover root repo options.discovery).length
          true :=
  w.buildFrom_eq repo root options now (.ok hits)

theorem exists_root_of_buildGraph (hg : (w.buildGraph repo knowledge options now).graph = .ok g) :
    ∃ root, w.rootAt? repo options.rootFile = .ok (some root) := by
  unfold buildGraph at hg
  split at hg
  · cases hg
  · cases hg
  · exact ⟨_, ‹_›⟩

theorem exists_finish_of_buildGraph (hroot : w.rootAt? repo options.rootFile = .ok (some root))
    (hg : (w.buildGraph repo knowledge options now).graph = .ok g) :
    ∃ a rootId discovered, w.assembledWith repo root options
        ((knowledge options.search).toOption.getD []) = .ok a ∧
      finish options now a rootId discovered (knowledge options.search).isOk = .ok g := by
  rw [graph_buildGraph hroot, buildFrom_eq] at hg
  obtain ⟨a, ha, hg⟩ := bind_eq_ok.mp hg
  obtain ⟨rootId, -, hfinish⟩ := bind_eq_ok.mp hg
  exact ⟨a, rootId, _, ha, hfinish⟩

theorem rootIdOf_of_not_isFile (h : w.isFile root ≠ true) (a : Assembly) :
    rootIdOf w repo root a = .ok none := by
  rw [rootIdOf, if_neg h]
  rfl

/-- Without a least score the graph is the filtered draft, if that can be laid out. -/
theorem exists_graph_of_isOk (hroot : w.rootAt? repo options.rootFile = .ok (some root))
    (hnot : w.isFile root ≠ true) (hf : options.filter.threshold = none)
    (hk : knowledge options.search = .ok hits) (ha : w.assembledWith repo root options hits = .ok a)
    (hlaid : (((a.draft.graph now).filtered options.filter).laidOut (.ofName options.layout)
      buildFrame none).isOk = true) :
    ∃ g, (w.buildGraph repo knowledge options now).graph = .ok g ∧
      ((a.draft.graph now).filtered options.filter).SameBare g := by
  cases hplaced : ((a.draft.graph now).filtered options.filter).laidOut (.ofName options.layout)
      buildFrame none with
  | error fault =>
    rw [hplaced] at hlaid
    cases hlaid
  | ok placed =>
    obtain ⟨g, hg⟩ := exists_finish hf hplaced (w.discover root repo options.discovery).length true
    refine ⟨g, ?_, (assembledWith_sound ha).sameBare_finish hf hg⟩
    rw [graph_buildGraph hroot, hk, buildFrom_hits, ha, ok_bind, rootIdOf_of_not_isFile hnot,
      ok_bind]
    exact hg

end Workspace

/-! ## The files of a plain folder -/

namespace PlainFolder

variable {p : PlainFolder} {sources : List (String × Outline)}

theorem rootAt?_eq (p : PlainFolder) : p.workspace.rootAt? repo "." = .ok (some repo) := by
  have hpath : (Path.ofText ".").expanded p.workspace.homes = .ok {} := by rfl
  have hjoin : repo.join {} = repo := by decide
  rw [Workspace.rootAt?, hpath, ok_bind]
  dsimp only
  rw [hjoin, Workspace.probe, p.entry_repo, p.resolve_repo]
  rfl

/-- The folder holds files in known languages, which are outlined already. -/
structure Holds (p : PlainFolder) (sources : List (String × Outline)) : Prop where
  files : p.files = sources.map fun x => (x.1, ⟨none, .ready x.2⟩)
  paths : ∀ x ∈ sources, Path.ofText (repo.child x.1).text = repo.child x.1 ∧
    (languageOf? (repo.child x.1).extension).isSome = true

def outlinesOf (sources : List (String × Outline)) : Table String Outline :=
  sources.map fun x => (x.1, { x.2 with path := (repo.child x.1).text })

variable {x : String × Outline} {options : BuildOptions}

theorem Holds.addOutline_eq (h : p.Holds sources) (hx : x ∈ sources) (t : Table String Outline) :
    Assembly.addOutline p.workspace repo t (repo.child x.1) =
      .ok (t.put x.1 { x.2 with path := (repo.child x.1).text }) := by
  have hmem : (x.1, ⟨none, .ready x.2⟩) ∈ p.files :=
    h.files ▸ List.mem_map.mpr ⟨x, hx, rfl⟩
  have hfile := file_eq hmem
  have hrelative := relative_eq hmem
  obtain ⟨hpath, hsome⟩ := h.paths x hx
  obtain ⟨language, hlanguage⟩ := Option.isSome_iff_exists.mp hsome
  have houtline : p.workspace.outline (repo.child x.1).text =
      .ok (some { x.2 with path := (repo.child x.1).text }) := by
    unfold Workspace.outline
    simp only [hpath, hlanguage]
    dsimp only at hfile
    rw [hfile]
  rw [Assembly.addOutline_of_some houtline, hrelative]
  rfl

theorem put_outlinesOf (hx : x.1 ∉ sources.map Prod.fst) :
    (outlinesOf sources).put x.1 { x.2 with path := (repo.child x.1).text } =
      outlinesOf (sources ++ [x]) := by
  have hnew : (outlinesOf sources).has x.1 = false := by
    refine Bool.eq_false_iff.mpr fun hhas => hx ?_
    obtain ⟨y, hy, hkey⟩ := List.any_eq_true.mp hhas
    obtain ⟨z, hz, rfl⟩ := List.mem_map.mp hy
    exact List.mem_map.mpr ⟨z, hz, beq_iff_eq.mp hkey⟩
  rw [Table.put, hnew, if_neg Bool.false_ne_true, outlinesOf, outlinesOf, List.map_append]
  rfl

theorem Holds.foldlM_addOutline (h : p.Holds sources) {done rest : List (String × Outline)}
    (hsources : sources = done ++ rest) :
    (rest.map fun x => repo.child x.1).foldlM (Assembly.addOutline p.workspace repo)
      (outlinesOf done) = .ok (outlinesOf sources) := by
  have hnames : (sources.map Prod.fst).Nodup := by
    have hdistinct := p.distinct
    rwa [h.files, List.map_map] at hdistinct
  induction rest generalizing done with
  | nil => rw [hsources, List.append_nil]; rfl
  | cons x rest ih =>
    have hx : x ∈ sources := hsources ▸ List.mem_append_right done List.mem_cons_self
    have hnew : x.1 ∉ done.map Prod.fst := by
      rw [hsources, List.map_append, List.map_cons] at hnames
      exact fun hmem => (List.nodup_middle.mp hnames).notMem (List.mem_append_left _ hmem)
    rw [List.map_cons, List.foldlM_cons, h.addOutline_eq hx, ok_bind, put_outlinesOf hnew]
    exact ih (hsources.trans (List.append_assoc done [x] rest).symm)

theorem Holds.outlined_eq (h : p.Holds sources) :
    Assembly.outlined p.workspace repo (sources.map fun x => repo.child x.1) =
      .ok { outlines := outlinesOf sources } := by
  rw [Assembly.outlined, show ([] : Table String Outline) = outlinesOf [] from rfl,
    h.foldlM_addOutline (List.nil_append sources).symm]
  rfl

theorem exists_graph (knowledge : KnowledgeSource) {now : String} {hits : List Hit} {a : Assembly}
    (hroot : options.rootFile = ".") (hf : options.filter.threshold = none)
    (hk : knowledge options.search = .ok hits)
    (ha : p.workspace.assembledWith repo repo options hits = .ok a)
    (hlaid : (((a.draft.graph now).filtered options.filter).laidOut (.ofName options.layout)
      buildFrame none).isOk = true) :
    ∃ g, (p.workspace.buildGraph repo knowledge options now).graph = .ok g ∧
      ((a.draft.graph now).filtered options.filter).SameBare g := by
  refine Workspace.exists_graph_of_isOk (hroot ▸ p.rootAt?_eq) ?_ hf hk ha hlaid
  rw [Workspace.isFile, p.entry_repo]
  exact Bool.false_ne_true

def assemblyOf (sources : List (String × Outline)) (options : BuildOptions) : Assembly :=
  ((({ outlines := outlinesOf sources } : Assembly).addFiles options.filter).addSymbols
    options.filter).addImports options

theorem Holds.discover_eq (h : p.Holds sources) {f : GraphFilter} (hexcluded : f.excluded = [])
    (hincluded : f.included = []) :
    p.workspace.discover repo repo { excluded := f.excluded, included := f.included } =
      sources.map fun x => repo.child x.1 := by
  have hfiles := p.discover_eq (d := { excluded := f.excluded, included := f.included }) hexcluded
    hincluded rfl
  rw [hfiles, h.files, List.map_map]
  rfl

theorem Holds.assembledWith_eq (h : p.Holds sources) (hexcluded : options.filter.excluded = [])
    (hincluded : options.filter.included = []) (hits : List Hit) :
    p.workspace.assembledWith repo repo options hits =
      hits.foldlM (Assembly.addHit p.workspace repo options.filter)
        (assemblyOf sources options) := by
  rw [Workspace.assembledWith, h.discover_eq hexcluded hincluded, assemble, h.outlined_eq]
  rfl

theorem Holds.assembledWith_nil (h : p.Holds sources) (hexcluded : options.filter.excluded = [])
    (hincluded : options.filter.included = []) :
    p.workspace.assembledWith repo repo options [] = .ok (assemblyOf sources options) :=
  h.assembledWith_eq hexcluded hincluded []

end PlainFolder

/-! ## A folder with two files -/

namespace Shelf

/-- The files with their outlines: the first has a function, the second is empty. -/
def sources : List (String × Outline) :=
  [("a b.ts",
      { path := ""
        language := "typescript"
        entities :=
          [{ id := "a.ts:f", kind := "function", name := "f", startLine := 1, endLine := 3 }] }),
    ("a_b.ts", { path := "", language := "typescript" })]

def entries : List (String × Entry) := sources.map fun (name, o) => (name, .file ⟨none, .ready o⟩)

def workspace : Workspace where
  tree := .folder [("repo", .folder entries)]
  current := []
  homes := fun _ => none

def repo : Path := { root := "/", parts := ["repo"] }

def options : BuildOptions where
  rootFile := "."
  layout := "hierarchical"
  filter := { edgeKinds := ["contains"] }

def folder : PlainFolder where
  files := sources.map fun (name, o) => (name, ⟨none, .ready o⟩)

theorem holds_sources : folder.Holds sources := ⟨rfl, by decide⟩

theorem rootAt?_eq : workspace.rootAt? repo options.rootFile = .ok (some repo) := folder.rootAt?_eq

theorem discover_eq :
    workspace.discover repo repo options.discovery =
      sources.map fun (name, _) => repo.child name :=
  folder.discover_eq rfl rfl rfl

def outlines : Table String Outline :=
  sources.map fun (name, o) => (name, { o with path := (repo.child name).text })

theorem outlined_eq :
    Assembly.outlined workspace repo (sources.map fun (name, _) => repo.child name) =
      .ok { outlines := outlines } :=
  holds_sources.outlined_eq

def assembly : Assembly :=
  ((({ outlines := outlines } : Assembly).addFiles options.filter).addSymbols
    options.filter).addImports options

def drafted : Graph := (assembly.draft.graph "").filtered options.filter

theorem exists_graph : ∃ g, (workspace.buildGraph repo (fun _ => .ok []) options "").graph = .ok g ∧
    drafted.SameBare g := by
  have hassembled : workspace.assembledWith repo repo options [] = .ok assembly :=
    holds_sources.assembledWith_nil rfl rfl
  have hlaid : (drafted.laidOut (.ofName options.layout) buildFrame none).isOk = true := by
    decide +kernel
  have hgraph := PlainFolder.exists_graph (p := folder) (fun _ => .ok []) rfl rfl rfl hassembled
    hlaid
  exact hgraph

end Shelf

theorem Workspace.buildGraph_wellFormed_shelf :
    ∃ g, (Shelf.workspace.buildGraph Shelf.repo (fun _ => .ok []) Shelf.options "").graph = .ok g ∧
      g.ids = ["file:a_b.ts", "function:a_b.ts:f"] ∧ g.WellFormed Shelf.options.filter := by
  obtain ⟨g, hg, hbare⟩ := Shelf.exists_graph
  have hids : Shelf.drafted.ids = ["file:a_b.ts", "function:a_b.ts:f"] := by decide
  exact ⟨g, hg, hbare.ids.trans hids,
    (Shelf.workspace.buildGraph_wellFormed Shelf.repo _ _ _ Shelf.rootAt?_eq).1 g hg⟩

end CodeAtlas
