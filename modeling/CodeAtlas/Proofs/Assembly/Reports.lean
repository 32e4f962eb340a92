import CodeAtlas.Proofs.Assembly.Growth
import CodeAtlas.Proofs.Graph.Turning

/-!
# Reported relations

A hit reports an edge from its source to its target, if both are known and its kind is wanted. Some
names of relations are inverse: what calls a symbol is what it is called by.

* `Assembly.reportedEdge?`, `Assembly.addHit_eq`: what a hit reports, and how it is added.
* `Assembly.SameNames`: a hit reports the same to assemblies that know the same names.
* `Assembly.addHit_renamed`, `Assembly.addHit_turned`: the plain name, with the ends kept or
  exchanged.
-/

namespace CodeAtlas

def Hit.paths (hit : Hit) : List Path :=
  ["source_file", "target_file", "file_path"].filterMap fun key =>
    ((hit.detail? key).bind Json.filledStr?).map Path.ofText

/-! ## The edge that a hit reports -/

namespace Assembly

variable {w : Workspace} {repo : Path} {f : GraphFilter} {a : Assembly}

theorem addReported_eq_ok {b : Assembly} {e : Edge} : addReported a (some e) = .ok b ↔
    a.draft.weightFault? e = none ∧ b = { a with draft := a.draft.addEdge e } := by
  simp only [addReported, Draft.tryAddEdge]
  cases a.draft.weightFault? e with
  | some fault => simp
  | none => simp [eq_comm]

theorem addHit_eq (w : Workspace) (repo : Path) (f : GraphFilter) (a : Assembly) (hit : Hit) :
    addHit w repo f a hit = reportedEdge? w repo f a hit >>= fun reported =>
      addReported a reported >>= fun b => noteFrequency w repo b hit := rfl

/-- The assemblies know the same files, symbols and nodes by name. -/
structure SameNames (a a' : Assembly) : Prop where
  fileIds : a'.fileIds = a.fileIds
  symbolIds : a'.symbolIds = a.symbolIds
  has : a'.draft.has = a.draft.has

namespace SameNames

variable {a' : Assembly}

theorem fileNamed_eq (h : SameNames a a') (value : Option Json) :
    fileNamed w repo a' value = fileNamed w repo a value := by
  unfold fileNamed
  rw [h.fileIds]

theorem endpoint_eq (h : SameNames a a') (file symbol : Option Json) :
    endpoint w repo a' file symbol = endpoint w repo a file symbol := by
  unfold endpoint
  rw [h.fileNamed_eq, h.fileIds, h.symbolIds, h.has]

theorem reportedEdge?_eq (h : SameNames a a') (hit : Hit) :
    reportedEdge? w repo f a' hit = reportedEdge? w repo f a hit := by
  unfold reportedEdge?
  simp only [h.endpoint_eq]

theorem reportedFrequency?_eq (h : SameNames a a') (hit : Hit) :
    reportedFrequency? w repo a' hit = reportedFrequency? w repo a hit := by
  unfold reportedFrequency?
  rw [h.fileNamed_eq, h.fileIds]

end SameNames

theorem fileNamed_lost (value : Option Json) :
    Meets (fun _ => True) (· = BuildError.lostPath) (fileNamed w repo a value) := by
  unfold fileNamed
  split
  · exact .ok trivial
  · split
    · exact .ok trivial
    · split
      · refine Meets.bind (P := fun _ => True) ?_ fun _ _ => .ok trivial
        unfold Workspace.relative
        split
        · exact .ok trivial
        · exact .ok trivial
        · exact .error rfl
      · exact .ok trivial

theorem endpoint_lost (file symbol : Option Json) :
    Meets (fun _ => True) (· = BuildError.lostPath) (endpoint w repo a file symbol) := by
  refine (fileNamed_lost file).bind fun path _ => ?_
  cases path with
  | none => exact .ok trivial
  | some path => exact .ok trivial

end Assembly

/-! ## Renamed and turned reports -/

namespace Hit

/-- The hit names a relation, whatever the case of the letters. -/
def Names (h : Hit) (relation : String) : Prop :=
  ∃ name, h.detail? "relationship_type" = some (.str name) ∧
    String.ofList (name.toList.map Text.capital) = relation

/-- The inverse relations, with the ones that they invert. -/
def inverses : List (String × String) := [("CALLED_BY", "CALLS"), ("IMPORTED_BY", "IMPORTS")]

/-- The second hit names the relation of which the first names the inverse. -/
structure Inverts (h h' : Hit) : Prop where
  relation : ∃ x ∈ inverses, h.Names x.1 ∧ h'.Names x.2
  score : h'.score = h.score
  path : h'.detail? "file_path" = h.detail? "file_path"
  frequency : h'.detail? "change_frequency" = h.detail? "change_frequency"

/-- The plain name of the relation, with the ends as they were. -/
structure RenamedTo (h h' : Hit) : Prop extends h.Inverts h' where
  sourceFile : h'.detail? "source_file" = h.detail? "source_file"
  sourceSymbol : h'.detail? "source_symbol" = h.detail? "source_symbol"
  targetFile : h'.detail? "target_file" = h.detail? "target_file"
  targetSymbol : h'.detail? "target_symbol" = h.detail? "target_symbol"

/-- The plain name of the relation, with the ends exchanged. -/
structure TurnedInto (h h' : Hit) : Prop extends h.Inverts h' where
  sourceFile : h'.detail? "source_file" = h.detail? "target_file"
  sourceSymbol : h'.detail? "source_symbol" = h.detail? "target_symbol"
  targetFile : h'.detail? "target_file" = h.detail? "source_file"
  targetSymbol : h'.detail? "target_symbol" = h.detail? "source_symbol"

variable {h h' : Hit}

theorem Names.exists_name {relation : String} (hnames : h.Names relation) (hne : relation ≠ "") :
    ∃ name, (h.detail? "relationship_type").bind Json.filledStr? = some name ∧
      relationKind name = ((relations.find? (·.1 == relation)).map (·.2)).getD "references" := by
  obtain ⟨name, hname, rfl⟩ := hnames
  have hfilled : name.isEmpty = false := by
    rw [Bool.eq_false_iff]
    intro hempty
    rw [String.isEmpty_iff.mp hempty] at hne
    exact hne rfl
  refine ⟨name, ?_, rfl⟩
  rw [hname, Option.bind_some, Json.filledStr?, hfilled]
  rfl

theorem Inverts.exists_names (hinv : h.Inverts h') : ∃ name name',
    (h.detail? "relationship_type").bind Json.filledStr? = some name ∧
    (h'.detail? "relationship_type").bind Json.filledStr? = some name' ∧
    relationKind name' = relationKind name := by
  obtain ⟨x, hx, hnames, hnames'⟩ := hinv.relation
  have hkinds : ∀ x ∈ inverses, x.1 ≠ "" ∧ x.2 ≠ "" ∧
      ((relations.find? (·.1 == x.2)).map (·.2)).getD "references" =
        ((relations.find? (·.1 == x.1)).map (·.2)).getD "references" := by decide
  obtain ⟨hne, hne', hkind⟩ := hkinds x hx
  obtain ⟨name, hname, hof⟩ := hnames.exists_name hne
  obtain ⟨name', hname', hof'⟩ := hnames'.exists_name hne'
  exact ⟨name, name', hname, hname', hof'.trans (hkind.trans hof.symm)⟩

end Hit

namespace Assembly

variable {w : Workspace} {repo : Path} {f : GraphFilter} {a : Assembly} {h h' : Hit}

theorem reportedEdge?_renamed (hren : h.RenamedTo h') :
    reportedEdge? w repo f a h' = reportedEdge? w repo f a h := by
  obtain ⟨name, name', hname, hname', hkind⟩ := hren.toInverts.exists_names
  unfold reportedEdge?
  rw [hname, hname', hren.sourceFile, hren.sourceSymbol, hren.targetFile, hren.targetSymbol]
  dsimp only
  rw [hkind, hren.score]

theorem reportedEdge?_turned (hturn : h.TurnedInto h') :
    reportedEdge? w repo f a h' = Option.map Edge.turned <$> reportedEdge? w repo f a h := by
  obtain ⟨name, name', hname, hname', hkind⟩ := hturn.toInverts.exists_names
  unfold reportedEdge?
  rw [hname, hname', hturn.sourceFile, hturn.sourceSymbol, hturn.targetFile, hturn.targetSymbol]
  dsimp only
  rw [hkind, hturn.score]
  cases hs : endpoint w repo a (h.detail? "source_file") (h.detail? "source_symbol") with
  | error fault =>
    obtain rfl := (endpoint_lost _ _).of_eq_error hs
    cases ht : endpoint w repo a (h.detail? "target_file") (h.detail? "target_symbol") with
    | error fault' =>
      obtain rfl := (endpoint_lost _ _).of_eq_error ht
      rfl
    | ok target => rfl
  | ok source =>
    cases ht : endpoint w repo a (h.detail? "target_file") (h.detail? "target_symbol") with
    | error fault' => rfl
    | ok target =>
      cases source with
      | none => cases target <;> rfl
      | some source =>
        cases target with
        | none => rfl
        | some target =>
          dsimp only [bind, Except.bind, pure, Except.pure, Functor.map, Except.map]
          split <;> rfl

theorem exists_between_of_reportedEdge? {e : Edge}
    (he : reportedEdge? w repo f a h = .ok (some e)) :
    ∃ source target kind, e = Edge.between source target kind h.score := by
  unfold reportedEdge? at he
  split at he
  · cases he
  · obtain ⟨source, -, he⟩ := bind_eq_ok.mp he
    obtain ⟨target, -, he⟩ := bind_eq_ok.mp he
    have he := Except.ok.inj he
    split at he
    · split at he
      · exact ⟨_, _, _, (Option.some.inj he).symm⟩
      · cases he
    · cases he

theorem between_of_reportedEdge? {e : Edge} (he : reportedEdge? w repo f a h = .ok (some e)) :
    e = Edge.between e.source e.target e.kind e.weight := by
  obtain ⟨source, target, kind, rfl⟩ := exists_between_of_reportedEdge? he
  rfl

theorem noteFrequency_inverse (hinv : h.Inverts h') :
    noteFrequency w repo a h' = noteFrequency w repo a h := by
  unfold noteFrequency reportedFrequency?
  rw [hinv.path, hinv.frequency]

theorem addHit_renamed (hren : h.RenamedTo h') :
    addHit w repo f a h' = addHit w repo f a h := by
  rw [addHit_eq, addHit_eq, reportedEdge?_renamed hren]
  simp only [noteFrequency_inverse hren.toInverts]

theorem addHit_turned (hturn : h.TurnedInto h')
    (heither : ∀ e, reportedEdge? w repo f a h = .ok (some e) → a.draft.TakesEitherWay e) :
    addHit w repo f a h' = addHit w repo f a h := by
  rw [addHit_eq, addHit_eq, reportedEdge?_turned hturn]
  simp only [noteFrequency_inverse hturn.toInverts]
  cases hreported : reportedEdge? w repo f a h with
  | error fault => rfl
  | ok reported =>
    cases reported with
    | none => rfl
    | some e =>
      have htry := Draft.tryAddEdge_turned (heither e hreported)
        (between_of_reportedEdge? hreported)
      have hadd : addReported a (some e.turned) = addReported a (some e) := by
        simp only [addReported, htry]
      rw [Except.map_ok, ok_bind, ok_bind, Option.map_some, hadd]

end Assembly

end CodeAtlas
