import CodeAtlas.Assembly.Build
import CodeAtlas.Proofs.Graph.Drafting
import CodeAtlas.Proofs.Outcome

/-!
# How a repository's graph grows

Once its files are outlined and added an assembly only grows: by the node of a symbol, by an edge,
or by what is measured of a node.

* **`buildFrom_meets`**: a build outlines and adds the files, grows and finishes.
-/

namespace CodeAtlas

open Relation

/-- Why the graph of a root that is there is not built. -/
inductive Workspace.Stops (w : Workspace) : BuildError → Prop
  | loop (path : Path) (h : w.resolve path = .error .linkLoop) : w.Stops .lostPath
  | number (fault : NumberFault) : w.Stops (.number fault)

theorem Workspace.eq_of_resolve_error {w : Workspace} {path : Path} {fault : FileFault}
    (h : w.resolve path = .error fault) : fault = .nullCharacter ∨ fault = .linkLoop := by
  unfold resolve at h
  split at h
  · exact Or.inl (Except.error.inj h).symm
  · dsimp only at h
    split at h
    · exact Or.inr (Except.error.inj h).symm
    · cases h

theorem Workspace.relative_eq_error {w : Workspace} {repo p : Path} {e : BuildError}
    (h : w.relative repo p = .error e) : e = .lostPath ∧ w.resolve p = .error .linkLoop := by
  unfold relative at h
  split at h
  · cases h
  · cases h
  · rename_i fault hnull hfault
    rcases eq_of_resolve_error hfault with rfl | rfl
    · exact absurd rfl hnull
    · exact ⟨(Except.error.inj h).symm, hfault⟩

theorem Workspace.relative_meets (w : Workspace) (repo path : Path) :
    Meets (fun _ => True) w.Stops (w.relative repo path) := by
  cases h : w.relative repo path with
  | ok text => exact .ok trivial
  | error e =>
    obtain ⟨rfl, hloop⟩ := relative_eq_error h
    exact .error (.loop path hloop)

namespace Assembly

/-- One change of an assembly whose files are in its draft. -/
inductive Grows : Assembly → Assembly → Prop
  | symbol (a : Assembly) (path language : String) (e : Entity)
      (ids : Table (String × String) String) :
      Grows a { a with
        symbolIds := ids
        draft := a.draft.addNode (symbolNode path language (a.fileIds.get? path) e) }
  | edge (a : Assembly) (e : Edge) : Grows a { a with draft := a.draft.addEdge e }
  | measure (a : Assembly) (id : String) (change : Metrics → Metrics) :
      Grows a { a with
        draft := a.draft.changeNode id fun n => { n with metrics := change n.metrics } }

abbrev GrowsInto : Assembly → Assembly → Prop := ReflTransGen Grows

theorem growsInto_foldl {α : Type} {step : Assembly → α → Assembly}
    (hstep : ∀ a x, GrowsInto a (step a x)) (xs : List α) (a : Assembly) :
    GrowsInto a (xs.foldl step a) := by
  induction xs generalizing a with
  | nil => exact .refl
  | cons x xs ih => exact (hstep a x).trans (ih _)

/-! ## Files, symbols and imports -/

theorem edges_addFiles (a : Assembly) (f : GraphFilter) :
    (a.addFiles f).draft.edges = a.draft.edges := by
  unfold addFiles
  split
  · generalize a.outlines = outlines
    induction outlines generalizing a with
    | nil => rfl
    | cons x outlines ih =>
      rw [List.foldl_cons, ih]
      exact Draft.edges_addNode _ _
  · rfl

theorem growsInto_addSymbol (f : GraphFilter) (path : String) (o : Outline) (a : Assembly)
    (e : Entity) : GrowsInto a (addSymbol f path o a e) := by
  unfold addSymbol
  split
  · -- the node comes first, and the edge from its file, if there is one, second
    have hnode := Grows.symbol a path o.language e
      ((a.symbolIds.keep (path, e.name) (symbolId path e)).put (path, qualifiedName e)
        (symbolId path e))
    dsimp only
    cases hfile : a.fileIds.get? path with
    | none =>
      rw [hfile] at hnode
      exact .single hnode
    | some fileId =>
      rw [hfile] at hnode
      dsimp only
      split
      · exact (ReflTransGen.single hnode).tail (.edge _ (Edge.between fileId _ containment))
      · exact .single hnode
  · exact .refl

theorem growsInto_addSymbols (f : GraphFilter) (a : Assembly) : GrowsInto a (a.addSymbols f) := by
  unfold addSymbols
  split
  · exact growsInto_foldl
      (fun a (x : String × Outline) =>
        growsInto_foldl (growsInto_addSymbol f x.1 x.2) x.2.entities a) _ a
  · exact .refl

theorem growsInto_addImport (external : Bool) (path sourceId : String) (a : Assembly)
    (i : ImportLine) : GrowsInto a (addImport external path sourceId a i) := by
  unfold addImport
  split
  · split
    · exact .single (.edge a _)
    · exact .refl
  · exact .refl

theorem growsInto_addImports (options : BuildOptions) (a : Assembly) :
    GrowsInto a (a.addImports options) := by
  unfold addImports
  split
  · refine growsInto_foldl (fun a x => ?_) _ a
    dsimp only
    split
    · exact growsInto_foldl (growsInto_addImport options.external x.1 _) x.2.imports a
    · exact .refl
  · exact .refl

/-! ## Knowledge -/

variable (w : Workspace) (repo : Path)

theorem fileNamed_meets (a : Assembly) (value : Option Json) :
    Meets (fun _ => True) w.Stops (fileNamed w repo a value) := by
  unfold fileNamed
  split
  · exact .ok trivial
  · split
    · exact .ok trivial
    · split
      · exact (w.relative_meets repo _).bind fun _ _ => .ok trivial
      · exact .ok trivial

theorem endpoint_meets (a : Assembly) (file symbol : Option Json) :
    Meets (fun _ => True) w.Stops (endpoint w repo a file symbol) := by
  refine (fileNamed_meets w repo a file).bind fun path _ => ?_
  cases path with
  | none => exact .ok trivial
  | some path => exact .ok trivial

theorem reportedEdge?_meets (f : GraphFilter) (a : Assembly) (hit : Hit) :
    Meets (fun _ => True) w.Stops (reportedEdge? w repo f a hit) := by
  unfold reportedEdge?
  split
  · exact .ok trivial
  · refine (endpoint_meets w repo a _ _).bind fun source _ => ?_
    exact (endpoint_meets w repo a _ _).bind fun target _ => .ok trivial

theorem addReported_meets (a : Assembly) (reported : Option Edge) :
    Meets (GrowsInto a) w.Stops (addReported a reported) := by
  unfold addReported
  split
  · exact .ok .refl
  · split
    · rename_i d hd
      obtain ⟨-, rfl⟩ := Draft.tryAddEdge_eq_ok.mp hd
      exact .ok (.single (.edge a _))
    · exact .error (.number _)

theorem noteFrequency_meets (a : Assembly) (hit : Hit) :
    Meets (GrowsInto a) w.Stops (noteFrequency w repo a hit) := by
  have hreported : Meets (fun _ => True) w.Stops (reportedFrequency? w repo a hit) :=
    (fileNamed_meets w repo a _).bind fun file _ => .ok trivial
  rw [noteFrequency, map_eq_pure_bind]
  refine hreported.bind fun reported _ => .ok ?_
  cases reported with
  | none => exact .refl
  | some reported =>
    exact .single (.measure a reported.1 fun m => { m with changeFrequency := reported.2 })

theorem addHit_meets (f : GraphFilter) (a : Assembly) (hit : Hit) :
    Meets (GrowsInto a) w.Stops (addHit w repo f a hit) :=
  (reportedEdge?_meets w repo f a hit).bind fun reported _ =>
    (addReported_meets w a reported).bind fun b hb =>
      (noteFrequency_meets w repo b hit).imp fun _ hc => hb.trans hc

theorem addOutline_meets (outlines : Table String Outline) (file : Path) :
    Meets (fun _ => True) w.Stops (addOutline w repo outlines file) := by
  unfold addOutline
  split
  · exact (w.relative_meets repo file).bind fun _ _ => .ok trivial
  · exact .ok trivial

variable {w repo} in
theorem addOutline_of_some {file : Path} {o : Outline} (ho : w.outline file.text = .ok (some o))
    (outlines : Table String Outline) :
    addOutline w repo outlines file = (do return outlines.put (← w.relative repo file) o) := by
  unfold addOutline
  rw [ho]

theorem outlined_meets (files : List Path) :
    Meets (fun a => a = { outlines := a.outlines }) w.Stops (outlined w repo files) := by
  unfold outlined
  refine Meets.bind (P := fun _ => True) ?_ fun _ _ => .ok rfl
  refine Meets.foldlM (fun outlines _ file => ?_) trivial files
  exact addOutline_meets w repo outlines file

end Assembly

/-! ## The build -/

open Assembly

variable (w : Workspace) (repo : Path)

theorem enrich_meets (options : BuildOptions) (found : Except SearchFault (List Hit))
    (a : Assembly) :
    Meets (fun x => GrowsInto a x.1) w.Stops (enrich w repo options found a) := by
  unfold enrich
  split
  · exact .ok .refl
  · rename_i hits
    refine Meets.bind (Meets.foldlM (R := GrowsInto a) (fun b hb hit => ?_) .refl hits)
      fun b hb => .ok hb
    exact (addHit_meets w repo options.filter b hit).imp fun c hc => hb.trans hc

theorem rootIdOf_meets (root : Path) (a : Assembly) :
    Meets (fun _ => True) w.Stops (rootIdOf w repo root a) := by
  unfold rootIdOf
  split
  · exact (w.relative_meets repo root).bind fun _ _ => .ok trivial
  · exact .ok trivial

theorem finish_meets (options : BuildOptions) (now : String) (a : Assembly)
    (rootId : Option String) (discovered : Nat) (enriched : Bool) :
    Meets (fun g => finish options now a rootId discovered enriched = .ok g) w.Stops
      (finish options now a rootId discovered enriched) := by
  cases h : finish options now a rootId discovered enriched with
  | ok g => exact .ok rfl
  | error e =>
    unfold finish at h
    dsimp only at h
    split at h
    · exact Except.error.inj h ▸ .error (.number _)
    · cases h

/-- A build outlines and adds the files, lets the assembly grow, and finishes; it stops only over
links in a circle or a number that cannot be computed. -/
theorem buildFrom_meets (root : Path) (found : Except SearchFault (List Hit))
    (options : BuildOptions) (now : String) :
    let files := w.discover root repo options.discovery
    Meets
      (fun g => ∃ a₀ a rootId enriched, outlined w repo files = .ok a₀ ∧
        GrowsInto (a₀.addFiles options.filter) a ∧
        finish options now a rootId files.length enriched = .ok g)
      w.Stops (buildFrom w repo root found options now) := by
  intro files
  have hassemble : Meets
      (fun a => ∃ a₀, outlined w repo files = .ok a₀ ∧ GrowsInto (a₀.addFiles options.filter) a)
      w.Stops (assemble w repo options files) := by
    have houtlined := outlined_meets w repo files
    unfold assemble
    cases h : outlined w repo files with
    | error e => exact .error (houtlined.of_eq_error h)
    | ok a₀ => exact .ok ⟨a₀, rfl, (growsInto_addSymbols _ _).trans (growsInto_addImports _ _)⟩
  refine hassemble.bind fun a ⟨a₀, h₀, ha⟩ => ?_
  refine (enrich_meets w repo options found a).bind fun ⟨b, enriched⟩ hb => ?_
  refine (rootIdOf_meets w repo root b).bind fun rootId _ => ?_
  refine (finish_meets w options now b rootId files.length enriched).imp fun g hg => ?_
  exact ⟨a₀, b, rootId, enriched, h₀, ha.trans hb, hg⟩

end CodeAtlas
