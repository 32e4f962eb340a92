import CodeAtlas.Proofs.Assembly.Reports
import CodeAtlas.Proofs.Assembly.WellFormed

/-!
# Which way a reported edge points

The kind of a reported edge is read off the name of its relation, but the ends are taken as they are
reported. So an inverse relation is built as if its source were the one that depends.

* **`Workspace.buildGraph_of_inverse`**: what renaming and turning a report change.
-/

namespace CodeAtlas

/-! ## Two runs -/

namespace Assembly

variable {w : Workspace} {repo : Path} {f : GraphFilter} {a a' b b' : Assembly} {h h' : Hit}
  {key : String}

/-- The assemblies know the same names; what is stored under the key tells them apart. -/
structure Apart (key : String) (a a' : Assembly) : Prop where
  fileIds : a'.fileIds = a.fileIds
  symbolIds : a'.symbolIds = a.symbolIds
  nodes : a'.draft.nodes = a.draft.nodes
  stored : a.draft.Apart key a'.draft

namespace Apart

theorem sameNames (h : Apart key a a') : SameNames a a' where
  fileIds := h.fileIds
  symbolIds := h.symbolIds
  has := by
    funext id
    rw [Draft.has, h.nodes]
    rfl

theorem addReported (h : Apart key a a') {reported : Option Edge}
    (hb : Assembly.addReported a reported = .ok b)
    (hb' : Assembly.addReported a' reported = .ok b') : Apart key b b' := by
  cases reported with
  | none =>
    obtain rfl := Except.ok.inj hb
    obtain rfl := Except.ok.inj hb'
    exact h
  | some e =>
    obtain ⟨hfault, rfl⟩ := addReported_eq_ok.mp hb
    obtain ⟨hfault', rfl⟩ := addReported_eq_ok.mp hb'
    refine ⟨h.fileIds, h.symbolIds, ?_, h.stored.addEdge hfault hfault'⟩
    simp only [Draft.nodes_addEdge]
    exact h.nodes

theorem noteFrequency (h : Apart key a a') {hit : Hit}
    (hb : Assembly.noteFrequency w repo a hit = .ok b)
    (hb' : Assembly.noteFrequency w repo a' hit = .ok b') : Apart key b b' := by
  rw [Assembly.noteFrequency] at hb hb'
  rw [h.sameNames.reportedFrequency?_eq] at hb'
  cases hreported : reportedFrequency? w repo a hit with
  | error fault => rw [hreported] at hb; cases hb
  | ok reported =>
    rw [hreported] at hb hb'
    obtain rfl := Except.ok.inj hb
    obtain rfl := Except.ok.inj hb'
    cases reported with
    | none => exact h
    | some noted =>
      refine ⟨h.fileIds, h.symbolIds, ?_, h.stored⟩
      simp only [withFrequency, Draft.changeNode, h.nodes]

theorem addHit (h : Apart key a a') {hit : Hit} (hb : Assembly.addHit w repo f a hit = .ok b)
    (hb' : Assembly.addHit w repo f a' hit = .ok b') : Apart key b b' := by
  rw [addHit_eq] at hb hb'
  rw [h.sameNames.reportedEdge?_eq] at hb'
  obtain ⟨reported, hreported, hb⟩ := bind_eq_ok.mp hb
  obtain ⟨reported', hreported', hb'⟩ := bind_eq_ok.mp hb'
  obtain rfl := Except.ok.inj (hreported.symm.trans hreported')
  obtain ⟨c, hc, hb⟩ := bind_eq_ok.mp hb
  obtain ⟨c', hc', hb'⟩ := bind_eq_ok.mp hb'
  exact (h.addReported hc hc').noteFrequency hb hb'

theorem addHits (h : Apart key a a') {hits : List Hit}
    (hb : hits.foldlM (Assembly.addHit w repo f) a = .ok b)
    (hb' : hits.foldlM (Assembly.addHit w repo f) a' = .ok b') : Apart key b b' := by
  induction hits generalizing a a' with
  | nil =>
    obtain rfl := Except.ok.inj hb
    obtain rfl := Except.ok.inj hb'
    exact h
  | cons hit hits ih =>
    rw [List.foldlM_cons] at hb hb'
    obtain ⟨c, hc, hb⟩ := bind_eq_ok.mp hb
    obtain ⟨c', hc', hb'⟩ := bind_eq_ok.mp hb'
    exact ih (h.addHit hc hc') hb hb'

end Apart

theorem apart_of_turned (hturn : h.TurnedInto h') {e : Edge}
    (he : reportedEdge? w repo f a h = .ok (some e)) (hno : ¬ a.draft.TakesEitherWay e)
    (hb : addHit w repo f a h = .ok b) (hb' : addHit w repo f a h' = .ok b') :
    Apart (Draft.keyOf e) b b' := by
  rw [addHit_eq] at hb hb'
  rw [he, ok_bind] at hb
  rw [reportedEdge?_turned hturn, he, Except.map_ok, ok_bind] at hb'
  obtain ⟨c, hc, hb⟩ := bind_eq_ok.mp hb
  obtain ⟨c', hc', hb'⟩ := bind_eq_ok.mp hb'
  obtain ⟨hfault, rfl⟩ := addReported_eq_ok.mp hc
  obtain ⟨hfault', rfl⟩ := addReported_eq_ok.mp hc'
  have hstored := Draft.apart_turned hno (between_of_reportedEdge? he) hfault hfault'
  have hapart : Apart (Draft.keyOf e) { a with draft := a.draft.addEdge e }
      { a with draft := a.draft.addEdge e.turned } :=
    ⟨rfl, rfl, by simp only [Draft.nodes_addEdge], hstored⟩
  exact hapart.noteFrequency hb (noteFrequency_inverse hturn.toInverts ▸ hb')

/-! ## Keys -/

theorem Grows.keyed (h : Grows a a') (ha : a.draft.Keyed) : a'.draft.Keyed := by
  cases h with
  | symbol path language e ids =>
    intro x hx
    dsimp only at hx
    rw [Draft.edges_addNode] at hx
    exact ha x hx
  | edge e => exact ha.addEdge e
  | measure id change => exact ha

theorem GrowsInto.keyed (h : GrowsInto a a') (ha : a.draft.Keyed) : a'.draft.Keyed := by
  induction h with
  | refl => exact ha
  | tail _ hstep ih => exact hstep.keyed ih

end Assembly

/-! ## Builds -/

namespace Workspace

variable {w : Workspace} {repo root : Path} {options : BuildOptions} {now : String}
  {before after hits : List Hit} {h h' : Hit} {knowledge knowledge' : KnowledgeSource}

theorem assembledWith_append_cons (w : Workspace) (repo root : Path) (options : BuildOptions)
    (before after : List Hit) (h : Hit) :
    w.assembledWith repo root options (before ++ h :: after) =
      w.assembledWith repo root options before >>= fun a =>
        Assembly.addHit w repo options.filter a h >>= fun b =>
          after.foldlM (Assembly.addHit w repo options.filter) b := by
  simp only [assembledWith, List.foldlM_append, List.foldlM_cons, bind_assoc]

theorem assembledWith_keyed {a : Assembly} (ha : w.assembledWith repo root options hits = .ok a) :
    a.draft.Keyed := by
  obtain ⟨a₀, hfresh, hgrow⟩ := assembledWith_grows ha
  refine hgrow.keyed fun e he => ?_
  rw [Assembly.edges_addFiles, hfresh] at he
  exact absurd he List.not_mem_nil

theorem exists_assembly_of_buildGraph (hroot : w.rootAt? repo options.rootFile = .ok (some root))
    (hk : knowledge options.search = .ok hits) {g : Graph}
    (hg : (w.buildGraph repo knowledge options now).graph = .ok g) :
    ∃ a, w.assembledWith repo root options hits = .ok a ∧ g.edges ⊆ a.draft.edges := by
  obtain ⟨a, rootId, discovered, ha, hfinish⟩ := exists_finish_of_buildGraph hroot hg
  rw [hk] at ha
  refine ⟨a, ha, fun x hx => ?_⟩
  rw [((assembledWith_sound ha).placed_finish hfinish).2] at hx
  have hmem := (List.mem_filter.mp hx).1
  rwa [Graph.edges_scored] at hmem

theorem buildGraph_congr {hits' : List Hit} (hk : knowledge options.search = .ok hits)
    (hk' : knowledge' options.search = .ok hits')
    (hassembled : ∀ root, w.rootAt? repo options.rootFile = .ok (some root) →
      w.assembledWith repo root options hits' = w.assembledWith repo root options hits) :
    w.buildGraph repo knowledge' options now = w.buildGraph repo knowledge options now := by
  unfold buildGraph
  cases hroot : w.rootAt? repo options.rootFile with
  | error fault => rfl
  | ok found =>
    cases found with
    | none => rfl
    | some root =>
      dsimp only
      rw [hk, hk', buildFrom_hits, buildFrom_hits, hassembled root hroot]

theorem buildGraph_congr_hit (hk : knowledge options.search = .ok (before ++ h :: after))
    (hk' : knowledge' options.search = .ok (before ++ h' :: after))
    (hhit : ∀ root a, w.rootAt? repo options.rootFile = .ok (some root) →
      w.assembledWith repo root options before = .ok a →
      Assembly.addHit w repo options.filter a h' = Assembly.addHit w repo options.filter a h) :
    w.buildGraph repo knowledge' options now = w.buildGraph repo knowledge options now := by
  refine buildGraph_congr hk hk' fun root hroot => ?_
  rw [assembledWith_append_cons, assembledWith_append_cons]
  cases ha : w.assembledWith repo root options before with
  | error fault => rfl
  | ok a => rw [ok_bind, ok_bind, hhit root a hroot ha]

/-- The hit reports the edge, after other hits. -/
def Reports (w : Workspace) (repo : Path) (options : BuildOptions) (before : List Hit) (h : Hit)
    (a : Assembly) (e : Edge) : Prop :=
  ∃ root, w.rootAt? repo options.rootFile = .ok (some root) ∧
    w.assembledWith repo root options before = .ok a ∧
    Assembly.reportedEdge? w repo options.filter a h = .ok (some e)

theorem Reports.unique {a a' : Assembly} {e e' : Edge} (hr : w.Reports repo options before h a e)
    (hr' : w.Reports repo options before h a' e') : a = a' ∧ e = e' := by
  obtain ⟨root, hroot, ha, he⟩ := hr
  obtain ⟨root', hroot', ha', he'⟩ := hr'
  obtain rfl := Option.some.inj (Except.ok.inj (hroot.symm.trans hroot'))
  obtain rfl := Except.ok.inj (ha.symm.trans ha')
  exact ⟨rfl, Option.some.inj (Except.ok.inj (he.symm.trans he'))⟩

/-- An edge of the graph that cannot be turned round is missing with the turned hit. -/
theorem Reports.not_perm {a : Assembly} {e : Edge} {g g' : Graph}
    (hreports : w.Reports repo options before h a e) (hturn : h.TurnedInto h')
    (hno : ¬ a.draft.TakesEitherWay e)
    (hk : knowledge options.search = .ok (before ++ h :: after))
    (hk' : knowledge' options.search = .ok (before ++ h' :: after))
    (hg : (w.buildGraph repo knowledge options now).graph = .ok g)
    (hg' : (w.buildGraph repo knowledge' options now).graph = .ok g')
    (hseen : Draft.keyOf e ∈ g.edges.map (·.id)) :
    ¬ (g'.edges.map Edge.signature).Perm (g.edges.map Edge.signature) := by
  intro hperm
  obtain ⟨root, hroot, ha, he⟩ := hreports
  obtain ⟨b, hb, hedges⟩ := exists_assembly_of_buildGraph hroot hk hg
  obtain ⟨b', hb', hedges'⟩ := exists_assembly_of_buildGraph hroot hk' hg'
  have hids := (assembledWith_sound hb).edgeIds
  have hids' := (assembledWith_sound hb').edgeIds
  have hkeyed := assembledWith_keyed hb
  have hkeyed' := assembledWith_keyed hb'
  -- the two runs part at this hit and do not meet again
  rw [assembledWith_append_cons, ha, ok_bind] at hb hb'
  obtain ⟨c, hc, hb⟩ := bind_eq_ok.mp hb
  obtain ⟨c', hc', hb'⟩ := bind_eq_ok.mp hb'
  have hapart := (Assembly.apart_of_turned hturn he hno hc hc').addHits hb hb'
  obtain ⟨x, hx, hid⟩ := List.mem_map.mp hseen
  have hmem : x.signature ∈ g'.edges.map Edge.signature :=
    hperm.symm.subset (List.mem_map_of_mem hx)
  exact (hid ▸ hapart.stored).signature_notMem hids hids' hkeyed hkeyed' (hedges hx)
    (List.map_subset Edge.signature hedges' hmem)

/-- **Which way an inverse relation points.** Under the plain name, with its ends as they are, the
hit leads to the same graph. With its ends exchanged it does so just where its edge is not in the
graph or can be turned round. -/
theorem buildGraph_of_inverse (w : Workspace) (repo : Path) (options : BuildOptions) (now : String)
    (hk : knowledge options.search = .ok (before ++ h :: after))
    (hk' : knowledge' options.search = .ok (before ++ h' :: after)) :
    (h.RenamedTo h' →
      w.buildGraph repo knowledge' options now = w.buildGraph repo knowledge options now) ∧
    (h.TurnedInto h' →
      ((∀ a e, w.Reports repo options before h a e → a.draft.TakesEitherWay e) →
        w.buildGraph repo knowledge' options now = w.buildGraph repo knowledge options now) ∧
      ∀ a e g g', w.Reports repo options before h a e →
        (w.buildGraph repo knowledge options now).graph = .ok g →
        (w.buildGraph repo knowledge' options now).graph = .ok g' →
        Draft.keyOf e ∈ g.edges.map (·.id) →
        ((g'.edges.map Edge.signature).Perm (g.edges.map Edge.signature) ↔
          a.draft.TakesEitherWay e)) := by
  refine ⟨fun hren => ?_, fun hturn => ?_⟩
  · exact buildGraph_congr_hit hk hk' fun _ _ _ _ => Assembly.addHit_renamed hren
  have hsame : (∀ a e, w.Reports repo options before h a e → a.draft.TakesEitherWay e) →
      w.buildGraph repo knowledge' options now = w.buildGraph repo knowledge options now := by
    intro hall
    refine buildGraph_congr_hit hk hk' fun root a hroot ha => ?_
    exact Assembly.addHit_turned hturn fun e he => hall a e ⟨root, hroot, ha, he⟩
  refine ⟨hsame, fun a e g g' hreports hg hg' hseen => ⟨fun hperm => ?_, fun htakes => ?_⟩⟩
  · by_contra hno
    exact hreports.not_perm hturn hno hk hk' hg hg' hseen hperm
  · have hall : ∀ a' e', w.Reports repo options before h a' e' → a'.draft.TakesEitherWay e' := by
      intro a' e' hreports'
      obtain ⟨rfl, rfl⟩ := hreports.unique hreports'
      exact htakes
    rw [hsame hall, hg] at hg'
    rw [Except.ok.inj hg']

end Workspace

/-! ## A call between two files -/

namespace Pair

def sources : List (String × Outline) :=
  ["a.ts", "b.ts"].map fun name => (name, { path := "", language := "typescript" })

def folder : PlainFolder where
  files := sources.map fun x => (x.1, ⟨none, .ready x.2⟩)

def options : BuildOptions where
  rootFile := "."
  layout := "hierarchical"
  filter := { edgeKinds := ["calls"] }

def report (relation source target : String) : Hit where
  score := .real 1
  details := some [("relationship_type", .str relation), ("source_file", .str source),
    ("target_file", .str target)]

def knowing (relation source target : String) : KnowledgeSource :=
  fun _ => .ok [report relation source target]

def files : Assembly :=
  ((({ outlines := PlainFolder.outlinesOf sources } : Assembly).addFiles options.filter).addSymbols
    options.filter).addImports options

def call (source target : String) : Edge :=
  Edge.between (nodeId "file" source) (nodeId "file" target) "calls"

theorem assembledWith_nil :
    folder.workspace.assembledWith PlainFolder.repo PlainFolder.repo options [] = .ok files := by
  have hholds : folder.Holds sources := ⟨rfl, by decide⟩
  exact hholds.assembledWith_nil rfl rfl

def reports : List (String × String × String) :=
  [("CALLED_BY", "a.ts", "b.ts"), ("CALLS", "b.ts", "a.ts")]

theorem reportedEdge?_eq : ∀ x ∈ reports,
    Assembly.reportedEdge? folder.workspace PlainFolder.repo options.filter files
      (report x.1 x.2.1 x.2.2) = .ok (some (call x.2.1 x.2.2)) := by
  simp only [reports, List.forall_mem_cons]
  exact ⟨rfl, rfl, fun _ h => nomatch h⟩

theorem assembledWith_eq : ∀ x ∈ reports,
    folder.workspace.assembledWith PlainFolder.repo PlainFolder.repo options
      [report x.1 x.2.1 x.2.2] =
        .ok { files with draft := files.draft.addEdge (call x.2.1 x.2.2) } := by
  intro x hx
  have hedges : files.draft.edges = [] := rfl
  have hfault : files.draft.weightFault? (call x.2.1 x.2.2) = none := by
    rw [Draft.weightFault?, hedges]
    rfl
  have hadd := Assembly.addReported_eq_ok.mpr ⟨hfault, rfl⟩
  have happend := folder.workspace.assembledWith_append_cons PlainFolder.repo PlainFolder.repo
    options [] [] (report x.1 x.2.1 x.2.2)
  rw [List.nil_append] at happend
  rw [happend, assembledWith_nil, ok_bind, Assembly.addHit_eq, reportedEdge?_eq x hx, ok_bind,
    hadd]
  rfl

def drafted (source target : String) : Graph :=
  (({ files with draft := files.draft.addEdge (call source target) } : Assembly).draft.graph
    "").filtered options.filter

theorem exists_graph : ∀ x ∈ reports, ∃ g,
    (folder.workspace.buildGraph PlainFolder.repo (knowing x.1 x.2.1 x.2.2) options "").graph =
      .ok g ∧ (drafted x.2.1 x.2.2).SameBare g := by
  have hlaid : ∀ x ∈ reports, ((drafted x.2.1 x.2.2).laidOut (.ofName options.layout) buildFrame
      none).isOk = true := by decide +kernel
  intro x hx
  exact PlainFolder.exists_graph _ rfl rfl rfl (assembledWith_eq x hx) (hlaid x hx)

theorem renamed : (report "CALLED_BY" "a.ts" "b.ts").RenamedTo (report "CALLS" "a.ts" "b.ts") where
  relation := ⟨_, List.mem_cons_self, ⟨_, rfl, by decide⟩, ⟨_, rfl, by decide⟩⟩
  score := rfl
  path := rfl
  frequency := rfl
  sourceFile := rfl
  sourceSymbol := rfl
  targetFile := rfl
  targetSymbol := rfl

theorem turned : (report "CALLED_BY" "a.ts" "b.ts").TurnedInto (report "CALLS" "b.ts" "a.ts") where
  relation := ⟨_, List.mem_cons_self, ⟨_, rfl, by decide⟩, ⟨_, rfl, by decide⟩⟩
  score := rfl
  path := rfl
  frequency := rfl
  sourceFile := rfl
  sourceSymbol := rfl
  targetFile := rfl
  targetSymbol := rfl

end Pair

theorem Workspace.buildGraph_of_inverse_pair :
    (Pair.folder.workspace.buildGraph PlainFolder.repo
        (Pair.knowing "CALLS" "a.ts" "b.ts") Pair.options "" =
      Pair.folder.workspace.buildGraph PlainFolder.repo
        (Pair.knowing "CALLED_BY" "a.ts" "b.ts") Pair.options "") ∧
    ∃ g g', (Pair.folder.workspace.buildGraph PlainFolder.repo
        (Pair.knowing "CALLED_BY" "a.ts" "b.ts") Pair.options "").graph = .ok g ∧
      (Pair.folder.workspace.buildGraph PlainFolder.repo
        (Pair.knowing "CALLS" "b.ts" "a.ts") Pair.options "").graph = .ok g' ∧
      ¬ (g'.edges.map Edge.signature).Perm (g.edges.map Edge.signature) := by
  obtain ⟨g, hg, hbare⟩ := Pair.exists_graph ("CALLED_BY", "a.ts", "b.ts") (by decide)
  obtain ⟨g', hg', -⟩ := Pair.exists_graph ("CALLS", "b.ts", "a.ts") (by decide)
  have hreports : Pair.folder.workspace.Reports PlainFolder.repo Pair.options []
      (Pair.report "CALLED_BY" "a.ts" "b.ts") Pair.files (Pair.call "a.ts" "b.ts") :=
    ⟨PlainFolder.repo, Pair.folder.rootAt?_eq, Pair.assembledWith_nil,
      Pair.reportedEdge?_eq ("CALLED_BY", "a.ts", "b.ts") (by decide)⟩
  have hseen : Draft.keyOf (Pair.call "a.ts" "b.ts") ∈ g.edges.map (·.id) := by
    rw [hbare.2]
    decide
  have hno : ¬ Pair.files.draft.TakesEitherWay (Pair.call "a.ts" "b.ts") := by
    rintro (hloop | ⟨-, hmem⟩)
    · revert hloop
      decide
    · cases hmem
  have hk : ∀ relation source target, Pair.knowing relation source target Pair.options.search =
      .ok ([] ++ Pair.report relation source target :: []) := fun _ _ _ => rfl
  have hkept := Pair.folder.workspace.buildGraph_of_inverse PlainFolder.repo Pair.options ""
    (hk "CALLED_BY" "a.ts" "b.ts") (hk "CALLS" "a.ts" "b.ts")
  have hturned := Pair.folder.workspace.buildGraph_of_inverse PlainFolder.repo Pair.options ""
    (hk "CALLED_BY" "a.ts" "b.ts") (hk "CALLS" "b.ts" "a.ts")
  refine ⟨hkept.1 Pair.renamed, g, g', hg, hg', fun hperm => hno ?_⟩
  exact ((hturned.2 Pair.turned).2 _ _ g g' hreports hg hg' hseen).mp hperm

/-- **A call the wrong way round.** That the first file is called by the second is built as a call
from the first to the second. -/
theorem Pair.caller_reversed :
    ∃ g g', (folder.workspace.buildGraph PlainFolder.repo
        (knowing "CALLED_BY" "a.ts" "b.ts") options "").graph = .ok g ∧
      (folder.workspace.buildGraph PlainFolder.repo
        (knowing "CALLS" "b.ts" "a.ts") options "").graph = .ok g' ∧
      g.edges.map (fun e => (e.source, e.kind, e.target)) =
        [("file:a.ts", "calls", "file:b.ts")] ∧
      g'.edges.map (fun e => (e.source, e.kind, e.target)) =
        [("file:b.ts", "calls", "file:a.ts")] := by
  obtain ⟨g, hg, hbare⟩ := exists_graph ("CALLED_BY", "a.ts", "b.ts") (by decide)
  obtain ⟨g', hg', hbare'⟩ := exists_graph ("CALLS", "b.ts", "a.ts") (by decide)
  refine ⟨g, g', hg, hg', ?_, ?_⟩
  · rw [hbare.2]
    decide
  · rw [hbare'.2]
    decide

end CodeAtlas