import CodeAtlas.Proofs.Assembly.Imports
import CodeAtlas.Proofs.Assembly.Reports

/-!
# Knowledge only adds to a graph

A reported edge raises the weight of an edge that is there or comes after all of them, and a
frequency of change is noted of a node that is there. Scores and places follow from the edges.

* `Graph.OnlyAdds`, **`Workspace.enrichment_only_adds`**: graphs without and with hits.
-/

namespace CodeAtlas

/-! ## Nodes and edges -/

/-- The node without its frequency of change, its impact score and its place. -/
def Node.steady (n : Node) : Node :=
  { n with
    metrics := { n.metrics with changeFrequency := .whole 0, impactScore := .whole 0 }
    position := none }

theorem Node.blurs_steady : Blurs steady :=
  ⟨fun _ => rfl, fun _ _ => rfl, fun _ _ => rfl, fun _ _ => rfl⟩

def Edge.ends (e : Edge) : String × String × String := (e.source, e.kind, e.target)

/-- The second edge is the first with the scores added to its weight, and counted. -/
structure Edge.Raised (scores : List Amount) (e₀ e : Edge) : Prop where
  same : e = { e₀ with weight := e.weight, count := e.count }
  weight : e.weight.computed = (scores.map Amount.computed).foldl (· + ·) e₀.weight.computed
  count : e.count = e₀.count + scores.length

theorem Edge.Raised.ends_eq {scores : List Amount} {e₀ e : Edge} (h : Edge.Raised scores e₀ e) :
    e₀.ends = e.ends := by
  rw [h.same]
  rfl

theorem Edge.Gathers.raised {parts more : List Edge} {e₀ e : Edge} (h₀ : e₀.Gathers parts)
    (h : e.Gathers (parts ++ more)) (hid : e.id = e₀.id) (hcounts : ∀ p ∈ more, p.count = 1) :
    Edge.Raised (more.map (·.weight)) e₀ e := by
  refine ⟨?_, ?_, ?_⟩
  · obtain ⟨first, hfirst, he₀⟩ := h₀.first
    obtain ⟨first', hfirst', he⟩ := h.first
    rw [List.head?_append, hfirst] at hfirst'
    obtain rfl := Option.some.inj hfirst'
    rw [he, he₀, hid]
  · have hne : parts.map (fun p => p.weight.computed) ≠ [] := by simpa using h₀.ne_nil
    rw [h.weight, List.map_append, Computed.total_append hne, ← h₀.weight, List.map_map]
    rfl
  · have hones : more.map (·.count) = more.map fun _ => (1 : Int) := List.map_congr_left hcounts
    rw [h.count, List.map_append, List.foldl_append, ← h₀.count, hones, foldl_count_ones,
      List.length_map]

/-- What is chosen alike from two lists goes on where the one ends. -/
theorem forall₂_take_filter {α : Type} {R : α → α → Prop} {p : α → Bool} {xs ys : List α}
    (h : List.Forall₂ R xs (ys.take xs.length)) (hp : ∀ x y, R x y → p x = p y) :
    List.Forall₂ R (xs.filter p) ((ys.filter p).take (xs.filter p).length) := by
  have hfilter : List.Forall₂ R (xs.filter p) ((ys.take xs.length).filter p) :=
    List.rel_filter (fun x y hxy => Bool.eq_iff_iff.mp (hp x y hxy)) h
  have hsplit : ys.filter p = (ys.take xs.length).filter p ++ (ys.drop xs.length).filter p := by
    rw [← List.filter_append, List.take_append_drop]
  rw [hsplit, List.take_left' hfilter.length_eq.symm]
  exact hfilter

/-- Edges that are added later are merged into those that are there or come after them. -/
theorem Draft.Collects.raised {d₀ d : Draft} {added more : List Edge} (h₀ : d₀.Collects added)
    (h : d.Collects (added ++ more)) (hcounts : ∀ p ∈ more, p.count = 1) :
    List.Forall₂
      (fun e₀ e => Edge.Raised ((more.filter (keyOf · == e₀.id)).map (·.weight)) e₀ e)
      d₀.edges (d.edges.take d₀.edges.length) := by
  have hids : (d.edges.take d₀.edges.length).map (·.id) = d₀.edges.map (·.id) := by
    rw [List.map_take, h.edgeIds, List.map_append, List.eraseDups_append, ← h₀.edgeIds]
    exact List.take_left' (List.length_map _)
  have hpairs : List.Forall₂ (fun e₀ e : Edge => e₀.id = e.id) d₀.edges
      (d.edges.take d₀.edges.length) := forall₂_iff_map_eq.mpr hids.symm
  obtain ⟨hlen, hzip⟩ := List.forall₂_iff_zip.mp hpairs
  refine List.forall₂_iff_zip.mpr ⟨hlen, fun {e₀ e} hmem => ?_⟩
  obtain ⟨he₀, he⟩ := List.of_mem_zip hmem
  have hid : e.id = e₀.id := (hzip hmem).symm
  have hgathers := h.gathers e (List.mem_of_mem_take he)
  rw [hid, List.filter_append] at hgathers
  exact (h₀.gathers e₀ he₀).raised hgathers hid fun p hp => hcounts p (List.mem_filter.mp hp).1

/-! ## Hits -/

namespace Assembly

variable {w : Workspace} {repo : Path} {f : GraphFilter} {a₀ a b : Assembly} {hit : Hit}
  {hits : List Hit} {added : List Edge}

def reported? (w : Workspace) (repo : Path) (f : GraphFilter) (a : Assembly) (hit : Hit) :
    Option Edge :=
  (reportedEdge? w repo f a hit).toOption.join

theorem reported?_of_ok {reported : Option Edge} (h : reportedEdge? w repo f a hit = .ok reported) :
    reported? w repo f a hit = reported := by
  rw [reported?, h]
  rfl

theorem exists_between_of_reported? {e : Edge} (h : reported? w repo f a hit = some e) :
    ∃ source target kind, e = Edge.between source target kind hit.score := by
  cases hreported : reportedEdge? w repo f a hit with
  | error fault =>
    rw [reported?, hreported] at h
    cases h
  | ok reported =>
    rw [reported?_of_ok hreported] at h
    exact exists_between_of_reportedEdge? (h ▸ hreported)

/-- The scores of the hits that report an edge under the key. -/
def scoresInto (w : Workspace) (repo : Path) (f : GraphFilter) (a : Assembly) (hits : List Hit)
    (key : String) : List Amount :=
  (hits.filter fun hit => (reported? w repo f a hit).any (Draft.keyOf · == key)).map (·.score)

theorem weights_reported (hits : List Hit) (key : String) :
    ((hits.filterMap (reported? w repo f a)).filter (Draft.keyOf · == key)).map (·.weight) =
      scoresInto w repo f a hits key := by
  induction hits with
  | nil => rfl
  | cons hit hits ih =>
    unfold scoresInto at ih ⊢
    cases hreported : reported? w repo f a hit with
    | none =>
      rw [List.filterMap_cons_none hreported, ih, List.filter_cons, hreported]
      rfl
    | some e =>
      obtain ⟨source, target, kind, rfl⟩ := exists_between_of_reported? hreported
      rw [List.filterMap_cons_some hreported, List.filter_cons, List.filter_cons, hreported,
        Option.any_some]
      split
      · rw [List.map_cons, List.map_cons, ih]
        rfl
      · exact ih

/-- The assembly has the names and the steady nodes of the first, and the added edges. -/
structure Enriches (a₀ : Assembly) (added : List Edge) (a : Assembly) : Prop where
  fileIds : a.fileIds = a₀.fileIds
  symbolIds : a.symbolIds = a₀.symbolIds
  nodes : a.draft.nodes.map Node.steady = a₀.draft.nodes.map Node.steady
  collects : a.draft.Collects added

namespace Enriches

theorem sameNames (h : Enriches a₀ added a) : SameNames a₀ a where
  fileIds := h.fileIds
  symbolIds := h.symbolIds
  has := by
    funext id
    rw [Bool.eq_iff_iff, Draft.has_iff, Draft.has_iff,
      ids_eq_of_bare (Node.blurs_steady.map_bare h.nodes)]

theorem addReported (h : Enriches a₀ added a) {reported : Option Edge}
    (hb : Assembly.addReported a reported = .ok b) :
    Enriches a₀ (added ++ reported.toList) b := by
  cases reported with
  | none =>
    obtain rfl := Except.ok.inj hb
    simpa using h
  | some e =>
    obtain ⟨hfault, rfl⟩ := addReported_eq_ok.mp hb
    refine ⟨h.fileIds, h.symbolIds, ?_, h.collects.addEdge hfault⟩
    rw [Draft.nodes_addEdge]
    exact h.nodes

theorem noteFrequency (h : Enriches a₀ added a)
    (hb : Assembly.noteFrequency w repo a hit = .ok b) : Enriches a₀ added b := by
  rw [Assembly.noteFrequency] at hb
  cases hreported : reportedFrequency? w repo a hit with
  | error fault => rw [hreported] at hb; cases hb
  | ok reported =>
    rw [hreported] at hb
    obtain rfl := Except.ok.inj hb
    cases reported with
    | none => exact h
    | some noted =>
      refine ⟨h.fileIds, h.symbolIds, ?_, h.collects.of_edges_eq rfl⟩
      rw [← h.nodes, withFrequency, Draft.changeNode, List.map_map]
      refine List.map_congr_left fun n _ => ?_
      by_cases hid : n.id = noted.1 <;> simp [hid, Node.steady]

/-- **A hit** adds the edge that it would report first of all. -/
theorem addHit (h : Enriches a₀ added a) (hb : Assembly.addHit w repo f a hit = .ok b) :
    Enriches a₀ (added ++ (reported? w repo f a₀ hit).toList) b := by
  rw [addHit_eq, h.sameNames.reportedEdge?_eq] at hb
  obtain ⟨reported, hreported, hb⟩ := bind_eq_ok.mp hb
  obtain ⟨c, hc, hb⟩ := bind_eq_ok.mp hb
  rw [reported?_of_ok hreported]
  exact (h.addReported hc).noteFrequency hb

/-- **Any hits** add the edges that they report. -/
theorem addHits (h : Enriches a₀ added a)
    (hb : hits.foldlM (Assembly.addHit w repo f) a = .ok b) :
    Enriches a₀ (added ++ hits.filterMap (reported? w repo f a₀)) b := by
  induction hits generalizing a added with
  | nil =>
    obtain rfl := Except.ok.inj hb
    simpa using h
  | cons hit hits ih =>
    rw [List.foldlM_cons] at hb
    obtain ⟨c, hc, hb⟩ := bind_eq_ok.mp hb
    have hrest := ih (h.addHit hc) hb
    rw [List.filterMap_eq_flatMap_toList, List.append_assoc] at hrest
    rwa [List.filterMap_eq_flatMap_toList, List.flatMap_cons]

end Enriches

end Assembly

/-! ## Builds -/

/-- The second graph has the nodes of the first, but for what knowledge can change, its edges raised
by the scores for their ids, and further edges of the listed kinds. -/
structure Graph.OnlyAdds (kinds : List String) (scores : String → List Amount) (g₀ g : Graph) :
    Prop where
  ids : g.ids = g₀.ids
  nodes : g.nodes.map Node.steady = g₀.nodes.map Node.steady
  ends : g₀.edges.map Edge.ends <+: g.edges.map Edge.ends
  further : ∀ e ∈ g.edges.drop g₀.edges.length,
    e.source ∈ g₀.ids ∧ e.target ∈ g₀.ids ∧ e.kind ∈ kinds
  raised : List.Forall₂ (fun e₀ e => Edge.Raised (scores e₀.id) e₀ e) g₀.edges
    (g.edges.take g₀.edges.length)

def Graph.unenriched (g : Graph) : Graph :=
  { g with metadata := { g.metadata with enrichmentApplied := false } }

theorem finish_unenriched (options : BuildOptions) (now : String) (a : Assembly)
    (rootId : Option String) (discovered : Nat) :
    finish options now a rootId discovered false =
      Graph.unenriched <$> finish options now a rootId discovered true := by
  unfold finish
  dsimp only
  split <;> rfl

namespace Workspace

variable {w : Workspace} {repo root : Path} {options : BuildOptions} {knowledge : KnowledgeSource}
  {now : String} {g g₀ : Graph} {hits : List Hit}

theorem buildFrom_error (w : Workspace) (repo root : Path) (options : BuildOptions) (now : String)
    (fault : SearchFault) :
    buildFrom w repo root (.error fault) options now =
      Graph.unenriched <$> buildFrom w repo root (.ok []) options now := by
  rw [buildFrom_eq, buildFrom_hits]
  simp only [map_bind, ← finish_unenriched]
  rfl

theorem exists_enriches {a₀ a : Assembly} (h₀ : w.assembledWith repo root options [] = .ok a₀)
    (h : w.assembledWith repo root options hits = .ok a) :
    ∃ added, a₀.draft.Collects added ∧ a₀.Enriches
      (added ++ hits.filterMap (Assembly.reported? w repo options.filter a₀)) a := by
  obtain ⟨b, hb, h₀⟩ := bind_eq_ok.mp h₀
  obtain ⟨b', hb', h⟩ := bind_eq_ok.mp h
  obtain rfl := Except.ok.inj (hb.symm.trans hb')
  obtain rfl := Except.ok.inj h₀
  obtain ⟨c, hc, -⟩ := bind_eq_ok.mp hb
  obtain ⟨-, -, -, inside, hcollects, -⟩ := exists_collected hc hb
  have hself : Assembly.Enriches b (inside ++ b.importEdges options) b := ⟨rfl, rfl, rfl, hcollects⟩
  exact ⟨_, hcollects, hself.addHits h⟩

theorem onlyAdds_of_finish {a₀ a : Assembly} {rootId₀ rootId : Option String}
    {discovered₀ discovered : Nat} {found₀ found : Bool}
    (hthreshold : options.filter.threshold = none)
    (h₀ : w.assembledWith repo root options [] = .ok a₀)
    (h : w.assembledWith repo root options hits = .ok a)
    (hg₀ : finish options now a₀ rootId₀ discovered₀ found₀ = .ok g₀)
    (hg : finish options now a rootId discovered found = .ok g) :
    g₀.OnlyAdds options.filter.edgeKinds
      (Assembly.scoresInto w repo options.filter a₀ hits) g := by
  obtain ⟨added, hcollects, henriches⟩ := exists_enriches h₀ h
  have hsound₀ := assembledWith_sound h₀
  have hsound := assembledWith_sound h
  have hnodes : g.nodes.map Node.steady = g₀.nodes.map Node.steady := by
    rw [Node.blurs_steady.finish hsound hthreshold hg,
      Node.blurs_steady.finish hsound₀ hthreshold hg₀]
    exact Node.blurs_steady.filtered hthreshold (Node.blurs_steady.settle henriches.nodes)
  have hids : g.ids = g₀.ids := ids_eq_of_bare (Node.blurs_steady.map_bare hnodes)
  have hedges₀ := (hsound₀.sameBare_finish hthreshold hg₀).edges_eq
  have hedges := (hsound.sameBare_finish hthreshold hg).edges_eq
  rw [hids] at hedges
  have hcounts : ∀ p ∈ hits.filterMap (Assembly.reported? w repo options.filter a₀),
      p.count = 1 := by
    intro p hp
    obtain ⟨hit, -, hreported⟩ := List.mem_filterMap.mp hp
    obtain ⟨source, target, kind, rfl⟩ := Assembly.exists_between_of_reported? hreported
    rfl
  have hraised := hcollects.raised henriches.collects hcounts
  simp only [Assembly.weights_reported] at hraised
  -- the same nodes are left of both drafts, so edges with the same ends are kept in both
  have hkept := forall₂_take_filter (p := fun e =>
    g₀.ids.contains e.source && g₀.ids.contains e.target &&
      options.filter.edgeKinds.contains e.kind) hraised fun e₀ e he => by rw [he.same]
  rw [← hedges₀, ← hedges] at hkept
  have hends : g₀.edges.map Edge.ends = (g.edges.take g₀.edges.length).map Edge.ends :=
    forall₂_iff_map_eq.mp (hkept.imp fun _ _ he => he.ends_eq)
  have hfits := hsound.wellFormed_finish hg
  refine ⟨hids, hnodes, ?_, fun e he => ?_, hkept⟩
  · rw [hends]
    exact (List.take_prefix _ _).map _
  · have hmem := List.mem_of_mem_drop he
    obtain ⟨hsource, htarget⟩ := hfits.ends e hmem
    exact ⟨hids ▸ hsource, hids ▸ htarget, hfits.edgeKinds e hmem⟩

/-- **Knowledge only adds.** Without a least score, the graph with hits has the nodes of the graph
without, and its edges first, raised by the scores; the others join nodes that are there. A search
that fails leads to the graph with no hits. -/
theorem enrichment_only_adds (w : Workspace) (repo : Path) (knowledge : KnowledgeSource)
    (options : BuildOptions) (now : String) :
    (∀ hits g₀, options.filter.threshold = none → knowledge options.search = .ok hits →
      (w.buildGraph repo (fun _ => .ok []) options now).graph = .ok g₀ →
      ∃ root a, w.rootAt? repo options.rootFile = .ok (some root) ∧
        w.assembledWith repo root options [] = .ok a ∧
        Meets
          (g₀.OnlyAdds options.filter.edgeKinds (Assembly.scoresInto w repo options.filter a hits))
          w.Stops (w.buildGraph repo knowledge options now).graph) ∧
    ∀ fault, knowledge options.search = .error fault →
      (w.buildGraph repo knowledge options now).graph =
        Graph.unenriched <$> (w.buildGraph repo (fun _ => .ok []) options now).graph := by
  refine ⟨fun hits g₀ hthreshold hk hg₀ => ?_, fun fault hk => ?_⟩
  · obtain ⟨root, hroot⟩ := exists_root_of_buildGraph hg₀
    obtain ⟨a₀, rootId₀, discovered₀, h₀, hfinish₀⟩ := exists_finish_of_buildGraph hroot hg₀
    refine ⟨root, a₀, hroot, h₀, ?_⟩
    cases hg : (w.buildGraph repo knowledge options now).graph with
    | error fault =>
      have hmeets := buildFrom_meets w repo root (knowledge options.search) options now
      exact .error (hmeets.of_eq_error ((graph_buildGraph hroot).symm.trans hg))
    | ok g =>
      obtain ⟨a, rootId, discovered, h, hfinish⟩ := exists_finish_of_buildGraph hroot hg
      rw [hk] at h
      exact .ok (onlyAdds_of_finish hthreshold h₀ h hfinish₀ hfinish)
  · cases hroot : w.rootAt? repo options.rootFile with
    | error fault => simp only [buildGraph, hroot]; rfl
    | ok found =>
      cases found with
      | none => simp only [buildGraph, hroot]; rfl
      | some root =>
        rw [graph_buildGraph hroot, graph_buildGraph hroot, hk, buildFrom_error]

end Workspace

/-! ## Reports on a file that imports another -/

namespace Borrower

/-- The import once more, with a frequency of change, and a call in the other direction. -/
def hits : List Hit :=
  [{ score := .whole 3
     details := some [("relationship_type", .str "IMPORTS"), ("source_file", .str "a.ts"),
       ("target_file", .str "b.ts"), ("file_path", .str "b.ts"), ("change_frequency", .int 7)] },
    { score := .real 1
      details := some [("relationship_type", .str "CALLS"), ("source_file", .str "b.ts"),
        ("target_file", .str "a.ts")] }]

def enriched : Except BuildError Assembly :=
  hits.foldlM (Assembly.addHit folder.workspace PlainFolder.repo options.filter)
    (PlainFolder.assemblyOf sources options)

def draftedFrom (a : Assembly) : Graph := (a.draft.graph "").filtered options.filter

theorem exists_enriched : ∃ g,
    (folder.workspace.buildGraph PlainFolder.repo (fun _ => .ok hits) options "").graph = .ok g ∧
      g.edges.map Edge.ends =
        [("file:a.ts", "imports", "file:b.ts"), ("file:b.ts", "calls", "file:a.ts")] := by
  have hlaid : (enriched.toOption.any fun a =>
      ((draftedFrom a).laidOut (.ofName options.layout) buildFrame none).isOk) = true := by
    decide +kernel
  have hends : (enriched.toOption.map fun a => (draftedFrom a).edges.map Edge.ends) =
      some [("file:a.ts", "imports", "file:b.ts"), ("file:b.ts", "calls", "file:a.ts")] := by
    decide +kernel
  cases henriched : enriched with
  | error fault => rw [henriched] at hlaid; cases hlaid
  | ok a =>
    rw [henriched] at hlaid hends
    rw [Except.toOption, Option.any_some] at hlaid
    have hassembled := (holds_sources.assembledWith_eq rfl rfl hits).trans henriched
    obtain ⟨g, hg, hbare⟩ := PlainFolder.exists_graph (fun _ => .ok hits) rfl rfl rfl hassembled
      hlaid
    refine ⟨g, hg, ?_⟩
    rw [hbare.2]
    exact Option.some.inj hends

end Borrower

theorem Workspace.enrichment_only_adds_borrower :
    ∃ g₀ g, (Borrower.folder.workspace.buildGraph PlainFolder.repo (fun _ => .ok [])
        Borrower.options "").graph = .ok g₀ ∧
      (Borrower.folder.workspace.buildGraph PlainFolder.repo (fun _ => .ok Borrower.hits)
        Borrower.options "").graph = .ok g ∧
      g₀.edges.map Edge.ends = [("file:a.ts", "imports", "file:b.ts")] ∧
      g.edges.map Edge.ends =
        [("file:a.ts", "imports", "file:b.ts"), ("file:b.ts", "calls", "file:a.ts")] ∧
      (∃ scores, scores "file:a.ts:imports:file:b.ts" = [.whole 3] ∧
        g₀.OnlyAdds Borrower.options.filter.edgeKinds scores g) ∧
      (Borrower.folder.workspace.buildGraph PlainFolder.repo (fun _ => .error .crashed)
        Borrower.options "").graph = .ok g₀.unenriched := by
  obtain ⟨g₀, hg₀, hbare⟩ := Borrower.exists_graph
  obtain ⟨g, hg, hends⟩ := Borrower.exists_enriched
  have hfound := (Borrower.folder.workspace.enrichment_only_adds PlainFolder.repo
    (fun _ => .ok Borrower.hits) Borrower.options "").1 Borrower.hits g₀ rfl rfl hg₀
  have hfailed := (Borrower.folder.workspace.enrichment_only_adds PlainFolder.repo
    (fun _ => .error .crashed) Borrower.options "").2 .crashed rfl
  obtain ⟨root, a, hroot, ha, hmeets⟩ := hfound
  obtain rfl := Option.some.inj (Except.ok.inj (Borrower.folder.rootAt?_eq.symm.trans hroot))
  have hassembled : Borrower.folder.workspace.assembledWith PlainFolder.repo PlainFolder.repo
      Borrower.options [] = .ok (PlainFolder.assemblyOf Borrower.sources Borrower.options) :=
    Borrower.holds_sources.assembledWith_nil rfl rfl
  obtain rfl := Except.ok.inj (hassembled.symm.trans ha)
  refine ⟨g₀, g, hg₀, hg, ?_, hends, ⟨_, rfl, hmeets.of_eq_ok hg⟩, ?_⟩
  · rw [hbare.2]
    decide +kernel
  · rw [hfailed, hg₀]
    rfl

end CodeAtlas
