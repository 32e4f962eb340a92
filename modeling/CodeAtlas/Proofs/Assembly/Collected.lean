import CodeAtlas.Proofs.Assembly.FileNodes

/-!
# The edges of an assembly

Before a knowledge source is asked, each definition is inside its file, and each import that means
another file joins the two. The weights are real, so none is lost.

* **`exists_collected`**: the edges of all files.
-/

namespace CodeAtlas

namespace Assembly

variable {a b : Assembly}

/-! ## Files -/

theorem outlines_addFiles (a : Assembly) (f : GraphFilter) :
    (a.addFiles f).outlines = a.outlines := by
  unfold addFiles
  split
  · suffices hfold : ∀ (xs : List (String × Outline)) (b : Assembly),
        (xs.foldl (fun b x => b.addFile x.1 x.2) b).outlines = b.outlines from hfold a.outlines a
    intro xs
    induction xs with
    | nil => exact fun b => rfl
    | cons x xs ih => exact fun b => ih (b.addFile x.1 x.2)
  · rfl

theorem get?_fileIds_addFiles (a : Assembly) {f : GraphFilter} (hf : "file" ∈ f.nodeKinds)
    (key : String) :
    (a.addFiles f).fileIds.get? key =
      if key ∈ a.outlines.keys then some (nodeId "file" key) else a.fileIds.get? key := by
  have hwanted : (f.nodeKinds.contains "file" || f.nodeKinds.contains "module") = true := by
    simp [hf]
  suffices hfold : ∀ (xs : Table String Outline) (b : Assembly),
      (xs.foldl (fun b x => b.addFile x.1 x.2) b).fileIds.get? key =
        if key ∈ xs.keys then some (nodeId "file" key) else b.fileIds.get? key by
    rw [addFiles, if_pos hwanted]
    exact hfold a.outlines a
  intro xs
  induction xs with
  | nil => exact fun b => rfl
  | cons x xs ih =>
    intro b
    rw [List.foldl_cons, ih, addFile, Table.get?_put, Table.keys, Table.keys, List.map_cons]
    by_cases hx : key = x.1
    · simp [hx]
    · simp only [hx, if_false, List.mem_cons, false_or]

/-! ## Edges -/

def withEdges (a : Assembly) (edges : List Edge) : Assembly :=
  { a with draft := edges.foldl Draft.addEdge a.draft }

theorem withEdges_append (a : Assembly) (es fs : List Edge) :
    a.withEdges (es ++ fs) = (a.withEdges es).withEdges fs := by
  simp [withEdges, List.foldl_append]

theorem foldl_withEdges {α : Type} {step : Assembly → α → Assembly}
    (edges : Assembly → α → List Edge)
    (hstep : ∀ a x, step a x = a.withEdges (edges a x))
    (hsame : ∀ a es x, edges (a.withEdges es) x = edges a x) (xs : List α) (a : Assembly) :
    xs.foldl step a = a.withEdges (xs.flatMap (edges a)) := by
  induction xs generalizing a with
  | nil => rfl
  | cons x xs ih =>
    have hedges : edges (a.withEdges (edges a x)) = edges a := funext (hsame a _)
    rw [List.foldl_cons, ih, hstep, hedges, List.flatMap_cons, withEdges_append]

end Assembly

theorem Draft.Collects.foldl_addEdge {d : Draft} {added es : List Edge} (h : d.Collects added)
    (hd : d.RealWeights) (hes : ∀ e ∈ es, ∃ x, e.weight = .real x) :
    (es.foldl Draft.addEdge d).Collects (added ++ es) ∧ (es.foldl Draft.addEdge d).RealWeights := by
  induction es generalizing d added with
  | nil => exact ⟨by simpa using h, hd⟩
  | cons e es ih =>
    obtain ⟨x, hx⟩ := hes e List.mem_cons_self
    have hstep := ih (h.addEdge (hd.weightFault? hx)) (hd.addEdge hx)
      fun f hf => hes f (List.mem_cons_of_mem e hf)
    rwa [List.append_assoc] at hstep

namespace Assembly

variable {a b : Assembly}

/-! ## Imports -/

/-- The edge of an import, if it means another file. -/
def importEdge? (a : Assembly) (external : Bool) (path sourceId : String) (i : ImportLine) :
    Option Edge :=
  ((resolveImport a.outlines path i.source external).bind a.fileIds.get?).bind fun targetId =>
    if targetId != sourceId then
      some (Edge.between sourceId targetId "imports" (.real 1) (some i.line))
    else none

def importEdgesOf (a : Assembly) (external : Bool) (x : String × Outline) : List Edge :=
  match a.fileIds.get? x.1 with
  | some sourceId => x.2.imports.filterMap (a.importEdge? external x.1 sourceId)
  | none => []

def importEdges (a : Assembly) (options : BuildOptions) : List Edge :=
  if options.filter.edgeKinds.contains "imports" then
    a.outlines.flatMap (a.importEdgesOf options.external)
  else []

theorem addImport_eq (external : Bool) (path sourceId : String) (a : Assembly) (i : ImportLine) :
    addImport external path sourceId a i =
      a.withEdges (a.importEdge? external path sourceId i).toList := by
  unfold addImport importEdge?
  cases (resolveImport a.outlines path i.source external).bind a.fileIds.get? with
  | none => rfl
  | some targetId =>
    dsimp only [Option.bind_some]
    split <;> rfl

theorem foldl_addImport (external : Bool) (path sourceId : String) (is : List ImportLine)
    (a : Assembly) :
    is.foldl (addImport external path sourceId) a =
      a.withEdges (is.filterMap (a.importEdge? external path sourceId)) := by
  rw [List.filterMap_eq_flatMap_toList]
  exact foldl_withEdges (fun a i => (a.importEdge? external path sourceId i).toList)
    (addImport_eq external path sourceId) (fun _ _ _ => rfl) is a

theorem addImports_eq (a : Assembly) (options : BuildOptions) :
    a.addImports options = a.withEdges (a.importEdges options) := by
  unfold addImports importEdges
  split
  · refine foldl_withEdges (fun a x => a.importEdgesOf options.external x) (fun b x => ?_)
      (fun _ _ _ => rfl) a.outlines a
    dsimp only [importEdgesOf]
    cases b.fileIds.get? x.1 with
    | none => rfl
    | some sourceId => exact foldl_addImport options.external x.1 sourceId x.2.imports b
  · rfl

theorem realWeight_importEdges (a : Assembly) (options : BuildOptions) :
    ∀ e ∈ a.importEdges options, ∃ x, e.weight = .real x := by
  intro e he
  unfold importEdges at he
  split at he
  · obtain ⟨x, -, hx⟩ := List.mem_flatMap.mp he
    unfold importEdgesOf at hx
    split at hx
    · obtain ⟨i, -, hi⟩ := List.mem_filterMap.mp hx
      obtain ⟨targetId, -, htarget⟩ := Option.bind_eq_some_iff.mp hi
      split at htarget
      · exact ⟨1, by rw [← Option.some.inj htarget]; rfl⟩
      · cases htarget
    · cases hx
  · cases he

/-! ## Definitions -/

/-- The second assembly has the files of the first, and edges to what is inside them. -/
structure Encloses (a b : Assembly) : Prop where
  outlines : b.outlines = a.outlines
  fileIds : b.fileIds = a.fileIds
  real : b.draft.RealWeights
  collects : ∃ inside, b.draft.Collects inside ∧
    ∀ e ∈ inside, e.kind = containment ∧ ∃ path, a.fileIds.get? path = some e.source

theorem encloses_self (h : a.draft.edges = []) : a.Encloses a where
  outlines := rfl
  fileIds := rfl
  real := by simp [Draft.RealWeights, h]
  collects := ⟨[], ⟨by simp [h], by simp [h]⟩, by simp⟩

theorem Encloses.addSymbol (h : a.Encloses b) (f : GraphFilter) (path : String) (o : Outline)
    (e : Entity) : a.Encloses (addSymbol f path o b e) := by
  obtain ⟨inside, hcollects, hinside⟩ := h.collects
  have hreal : ∀ n, (b.draft.addNode n).RealWeights := fun n => by
    simpa [Draft.RealWeights] using h.real
  have hnode : ∀ n, (b.draft.addNode n).Collects inside := fun n =>
    hcollects.of_edges_eq (Draft.edges_addNode b.draft n)
  unfold Assembly.addSymbol
  split
  · dsimp only
    cases hfile : b.fileIds.get? path with
    | none => exact ⟨h.outlines, h.fileIds, hreal _, inside, hnode _, hinside⟩
    | some fileId =>
      dsimp only
      split
      · refine ⟨h.outlines, h.fileIds, (hreal _).addEdge rfl, _,
          (hnode _).addEdge ((hreal _).weightFault? rfl), ?_⟩
        intro p hp
        rcases List.mem_append.mp hp with hp | hp
        · exact hinside p hp
        · obtain rfl := List.mem_singleton.mp hp
          exact ⟨rfl, path, h.fileIds ▸ hfile⟩
      · exact ⟨h.outlines, h.fileIds, hreal _, inside, hnode _, hinside⟩
  · exact h

theorem Encloses.foldl {α : Type} {step : Assembly → α → Assembly}
    (hstep : ∀ b x, a.Encloses b → a.Encloses (step b x)) (h : a.Encloses b) (xs : List α) :
    a.Encloses (xs.foldl step b) := by
  induction xs generalizing b with
  | nil => exact h
  | cons x xs ih => exact ih (hstep b x h)

theorem Encloses.addSymbols (h : a.Encloses b) (f : GraphFilter) :
    a.Encloses (b.addSymbols f) := by
  unfold Assembly.addSymbols
  split
  · refine Encloses.foldl (fun c x hc => ?_) h b.outlines
    exact Encloses.foldl (fun c e hc => hc.addSymbol f x.1 x.2 e) hc x.2.entities
  · exact h

end Assembly

/-- The edges of the files: those of containment, then those of imports. -/
theorem exists_collected {w : Workspace} {repo : Path} {options : BuildOptions} {files : List Path}
    {a₀ a : Assembly} (h₀ : Assembly.outlined w repo files = .ok a₀)
    (ha : assemble w repo options files = .ok a) :
    a.outlines = a₀.outlines ∧ a.fileIds = (a₀.addFiles options.filter).fileIds ∧
      a.draft.RealWeights ∧
      ∃ inside, a.draft.Collects (inside ++ a.importEdges options) ∧
        ∀ e ∈ inside, e.kind = containment ∧ ∃ path, a.fileIds.get? path = some e.source := by
  rw [assemble, h₀, ok_bind] at ha
  obtain rfl := Except.ok.inj ha
  have hfresh : a₀.draft = {} := by rw [(Assembly.outlined_meets w repo files).of_eq_ok h₀]
  have hnone : (a₀.addFiles options.filter).draft.edges = [] := by
    rw [Assembly.edges_addFiles, hfresh]
  have hfiles := a₀.outlines_addFiles options.filter
  obtain ⟨houtlines, hids, hreal, inside, hcollects, hinside⟩ :=
    (Assembly.encloses_self hnone).addSymbols options.filter
  rw [Assembly.addImports_eq]
  obtain ⟨hall, hreal'⟩ := hcollects.foldl_addEdge hreal
    (((a₀.addFiles options.filter).addSymbols options.filter).realWeight_importEdges options)
  exact ⟨houtlines.trans hfiles, hids, hreal', inside, hall, hids ▸ hinside⟩

end CodeAtlas
