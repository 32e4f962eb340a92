import CodeAtlas.Proofs.Assembly.Imports

/-!
# Symbols found by name

Definitions are entered under two names: the bare one, where the first stays, and the qualified one,
where the last stays. A qualified name comes before a bare one.

* **`Assembly.endpoint_meant`**: an end of a relation is the node of the definition meant.
-/

namespace CodeAtlas

open Assembly

/-- A node is wanted for the definition. -/
def GraphFilter.wants (f : GraphFilter) (e : Entity) : Bool :=
  f.nodeKinds.contains (symbolKind e.kind)

/-- The definition that a text means: the last of this qualified name, or else the first of this
bare name. -/
def Outline.meant? (o : Outline) (f : GraphFilter) (text : String) : Option Entity :=
  let wanted := o.entities.filter f.wants
  (wanted.reverse.find? (qualifiedName · == text)).or (wanted.find? (·.name == text))

namespace Assembly

variable {a b : Assembly} {f : GraphFilter} {path : String} {o : Outline}

/-- The wanted definitions of all files, each with the path of its file. -/
def wantedSymbols (f : GraphFilter) (outlines : Table String Outline) : List (String × Entity) :=
  outlines.flatMap fun x => (x.2.entities.filter f.wants).map (x.1, ·)

def nameSymbol (ids : Table (String × String) String) (x : String × Entity) :
    Table (String × String) String :=
  (ids.keep (x.1, x.2.name) (symbolId x.1 x.2)).put (x.1, qualifiedName x.2) (symbolId x.1 x.2)

theorem symbolIds_addSymbol (f : GraphFilter) (path : String) (o : Outline) (a : Assembly)
    (e : Entity) : (addSymbol f path o a e).symbolIds =
      if f.wants e then nameSymbol a.symbolIds (path, e) else a.symbolIds := by
  unfold addSymbol GraphFilter.wants
  split <;> rfl

theorem symbolIds_addSymbols (a : Assembly) (f : GraphFilter) :
    (a.addSymbols f).symbolIds = (wantedSymbols f a.outlines).foldl nameSymbol a.symbolIds := by
  unfold addSymbols
  split
  · rw [wantedSymbols, List.foldl_flatMap]
    refine (List.foldl_hom symbolIds fun b x => ?_).symm
    rw [List.foldl_map, List.foldl_filter]
    exact List.foldl_hom symbolIds fun b e => (symbolIds_addSymbol f x.1 x.2 b e).symm
  · -- symbols are neither files nor modules, so that none is wanted
    rename_i h
    have hkinds : ∀ kind ∈ ["class", "function", "method", "interface", "variable"],
        (kind != "file" && kind != "module") = true := by decide
    have hnone : wantedSymbols f a.outlines = [] := by
      refine List.flatMap_eq_nil_iff.mpr fun x _ => List.map_eq_nil_iff.mpr ?_
      refine List.filter_eq_nil_iff.mpr fun e _ he => h (List.any_eq_true.mpr ?_)
      exact ⟨_, List.contains_iff_mem.mp he, hkinds _ (symbolKind_mem e.kind)⟩
    rw [hnone]
    rfl

theorem get?_symbolIds_addSymbols (hsymbols : a.symbolIds = []) (hkeys : a.outlines.keys.Nodup)
    (ho : (path, o) ∈ a.outlines) (f : GraphFilter) (text : String) :
    (a.addSymbols f).symbolIds.get? (path, text) = (o.meant? f text).map (symbolId path) := by
  have hpath : (wantedSymbols f a.outlines).filter (·.1 == path) =
      (o.entities.filter f.wants).map (path, ·) := by
    rw [wantedSymbols, List.filter_flatMap, flatMap_of_nodup hkeys ho]
    · refine (List.filter_map ..).trans ?_
      exact congrArg _ (List.filter_eq_self.mpr fun e _ => beq_self_eq_true path)
    · intro x _ hne
      rw [List.filter_map, List.filter_eq_nil_iff.mpr fun e _ => ?_, List.map_nil]
      exact fun he => hne (beq_iff_eq.mp he)
  have hfind : ∀ (p : Entity → String) (xs : List (String × Entity)),
      xs.find? (fun x => (x.1, p x.2) == (path, text)) =
        (xs.filter (·.1 == path)).find? (fun x => p x.2 == text) := by
    intro p xs
    rw [List.find?_filter]
    congr 1
    funext x
    rw [Bool.decide_and, Bool.decide_eq_true, Bool.decide_eq_true]
    rfl
  rw [symbolIds_addSymbols, hsymbols]
  refine (Table.get?_foldl_keep_put _ _ _ _ _ _).trans ?_
  rw [hfind, hfind, List.filter_reverse, hpath, ← List.map_reverse, List.find?_map, List.find?_map,
    Outline.meant?, Option.map_or, Option.map_map, Option.map_map]
  rfl

/-- The second assembly has the files and nodes of the first, and nodes for symbols. -/
structure Names (a b : Assembly) : Prop where
  fileIds : b.fileIds = a.fileIds
  nodes : ∀ id, a.draft.has id = true → b.draft.has id = true
  symbols : ∀ x ∈ b.symbolIds, b.draft.has x.2 = true

theorem nodes_addSymbol {e : Entity} (he : f.wants e = true) :
    (addSymbol f path o a e).draft.nodes =
      (a.draft.addNode (symbolNode path o.language (a.fileIds.get? path) e)).nodes := by
  have hif : f.nodeKinds.contains (symbolKind e.kind) = true := he
  rw [addSymbol, if_pos hif]
  dsimp only
  split
  · split
    · exact Draft.nodes_addEdge _ _
    · rfl
  · rfl

theorem Names.addSymbol (h : Names a b) (f : GraphFilter) (path : String) (o : Outline)
    (e : Entity) : Names a (addSymbol f path o b e) := by
  by_cases he : f.wants e = true
  · have hhas : ∀ id, (Assembly.addSymbol f path o b e).draft.has id = true ↔
        b.draft.has id = true ∨ id = symbolId path e := by
      intro id
      rw [Draft.has, nodes_addSymbol he]
      exact Draft.has_addNode b.draft _ id
    have hnew := (hhas _).mpr (Or.inr rfl)
    refine ⟨?_, fun id hid => (hhas id).mpr (Or.inl (h.nodes id hid)), ?_⟩
    · rw [← h.fileIds]
      unfold Assembly.addSymbol
      split <;> rfl
    · have hold : ∀ x ∈ b.symbolIds, x.2 ∈ {id | (Assembly.addSymbol f path o b e).draft.has id} :=
        fun x hx => (hhas _).mpr (Or.inl (h.symbols x hx))
      rw [symbolIds_addSymbol, if_pos he]
      exact Table.forall_put (Table.forall_keep hold hnew) hnew
  · have hsame : Assembly.addSymbol f path o b e = b := if_neg he
    rw [hsame]
    exact h

theorem names_addSymbols (h : a.symbolIds = []) (f : GraphFilter) : Names a (a.addSymbols f) := by
  have hself : Names a a := ⟨rfl, fun _ => id, by simp [h]⟩
  unfold addSymbols
  split
  · refine List.foldlRecOn _ _ hself fun b hb x _ => ?_
    exact List.foldlRecOn _ _ hb fun c hc e _ => hc.addSymbol f x.1 x.2 e
  · exact hself

/-- **Names of symbols.** A text means the last wanted definition of this qualified name, else the
first of this bare name, else the file. -/
theorem endpoint_meant (w : Workspace) (repo : Path) (hsymbols : a.symbolIds = [])
    (hkeys : a.outlines.keys.Nodup) (ho : (path, o) ∈ a.outlines) {fileId : String}
    (hid : a.fileIds.get? path = some fileId) (hnode : a.draft.has fileId = true) (f : GraphFilter)
    (file : Option Json) (hfile : fileNamed w repo a file = .ok (some path)) {text : String}
    (htext : text ≠ "") :
    ∃ id, endpoint w repo (a.addSymbols f) file (some (.str text)) = .ok (some id) ∧
      id = ((o.meant? f text).map (symbolId path)).getD fileId ∧
      (a.addSymbols f).draft.has id = true := by
  have hnames := names_addSymbols hsymbols f
  have hget := get?_symbolIds_addSymbols hsymbols hkeys ho f text
  have hsame : fileNamed w repo (a.addSymbols f) file = .ok (some path) := by
    rw [← hfile]
    unfold fileNamed
    rw [hnames.fileIds]
  have hfilled : ((some (Json.str text)).bind Json.filledStr?) = some text := by
    simp [Json.filledStr?, htext]
  rw [endpoint, hsame, ok_bind]
  dsimp only
  rw [hfilled, Option.bind_some, hget, hnames.fileIds, hid]
  cases hmeant : o.meant? f text with
  | none => exact ⟨fileId, rfl, rfl, hnames.nodes _ hnode⟩
  | some e =>
    have hhas : (a.addSymbols f).draft.has (symbolId path e) = true := by
      rw [hmeant] at hget
      obtain ⟨x, hx, hxe⟩ := Option.map_eq_some_iff.mp hget
      exact hxe ▸ hnames.symbols x (List.mem_of_find?_eq_some hx)
    refine ⟨symbolId path e, ?_, rfl, hhas⟩
    rw [Option.map_some, Option.filter_some, if_pos hhas]
    rfl

end Assembly

/-! ## A file with names that are used again -/

namespace Namesakes

def entity (id kind name : String) : Entity := { id, kind, name, startLine := 1, endLine := 1 }

/-- Two methods of one name in different classes, and a function and a class of another. -/
def outline : Outline where
  path := ""
  language := "typescript"
  entities :=
    [entity "method:A.go" "method" "go", entity "method:A.run" "method" "run",
      entity "function:run" "function" "run", entity "class:run" "class" "run",
      entity "method:B.go" "method" "go"]

def filter : GraphFilter := { nodeKinds := ["file", "function", "class", "method"] }

def assembly : Assembly := ({ outlines := [("a.ts", outline)] } : Assembly).addFiles filter

/-- The end that a text means in the file. -/
def endOf (text : String) : Except BuildError (Option String) :=
  endpoint Borrower.folder.workspace PlainFolder.repo (assembly.addSymbols filter)
    (some (.str "a.ts")) (some (.str text))

end Namesakes

open Namesakes in
theorem Assembly.endpoint_meant_namesakes :
    endOf "run" = .ok (some "class:a.ts:run") ∧ endOf "go" = .ok (some "method:a.ts:A.go") ∧
      endOf "stop" = .ok (some "file:a.ts") := by
  have hend : ∀ text, text ≠ "" → endOf text =
      .ok (some (((outline.meant? filter text).map (symbolId "a.ts")).getD "file:a.ts")) := by
    intro text htext
    obtain ⟨id, hid, rfl, -⟩ := endpoint_meant Borrower.folder.workspace PlainFolder.repo
      (a := assembly) rfl (by decide) List.mem_cons_self rfl (by decide) filter
      (some (.str "a.ts")) rfl htext
    exact hid
  refine ⟨(hend "run" (by decide)).trans ?_, (hend "go" (by decide)).trans ?_,
    (hend "stop" (by decide)).trans ?_⟩
  · decide +kernel
  · decide +kernel
  · decide +kernel

end CodeAtlas
