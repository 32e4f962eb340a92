import CodeAtlas.Proofs.Assembly.Collected
import CodeAtlas.Proofs.Number.WholeSum

/-!
# Edges of imports

Paths without colons whose ids differ are told apart in the keys of edges. Then an edge joins two
files just where the one imports the other.

* **`Workspace.imports_of_records`**: the edges of imports in the graph of a repository.
-/

namespace CodeAtlas

/-! ## Keys -/

theorem colon_notMem_plain {name : String} (h : ':' ∉ name.toList) :
    ':' ∉ name.toList.map fun c => if plainInId c then c else '_' := by
  intro hmem
  obtain ⟨c, hc, hcolon⟩ := List.mem_map.mp hmem
  split at hcolon
  · exact h (hcolon ▸ hc)
  · cases hcolon

theorem Draft.sameEnds_of_keyOf_eq {e f : Edge} {u u' : String} (he : e.source = nodeId "file" u)
    (hf : f.source = nodeId "file" u') (hu : ':' ∉ u.toList) (hu' : ':' ∉ u'.toList)
    (hke : ':' ∉ e.kind.toList) (hkf : ':' ∉ f.kind.toList) (h : keyOf e = keyOf f) :
    e.SameEnds f := by
  have hlist := congrArg String.toList h
  rw [toList_keyOf, toList_keyOf, he, hf, toList_nodeId, toList_nodeId, List.append_assoc,
    List.append_assoc, List.cons_append, List.cons_append, List.append_cancel_left_eq,
    List.cons.injEq] at hlist
  rcases (char_cut_first (colon_notMem_plain hu)).mp hlist.2 with ⟨hpath, hrest⟩ | ⟨w, hw, -⟩
  · rcases (char_cut_first hke).mp hrest with ⟨hkind, htarget⟩ | ⟨w, hw, -⟩
    · refine ⟨?_, String.toList_inj.mp hkind, String.toList_inj.mp htarget⟩
      rw [he, hf, ← String.toList_inj, toList_nodeId, toList_nodeId, hpath]
    · exact absurd (by simp [hw]) hkf
  · exact absurd (by simp [hw]) (colon_notMem_plain hu')

/-! ## Lists with distinct keys -/

section Nodup

variable {α β : Type} {key : α → String} {xs : List α} {x : α}

theorem flatMap_of_nodup (hd : (xs.map key).Nodup) (hx : x ∈ xs) {f : α → List β}
    (hf : ∀ y ∈ xs, key y ≠ key x → f y = []) : xs.flatMap f = f x := by
  obtain ⟨front, back, rfl⟩ := List.append_of_mem hx
  rw [List.map_append, List.map_cons, List.nodup_middle, List.nodup_cons] at hd
  have hother : ∀ y, y ∈ front ∨ y ∈ back → f y = [] := by
    intro y hy
    refine hf y (by rcases hy with hy | hy <;> simp [hy]) fun hkey => hd.1 ?_
    rw [← hkey, ← List.map_append]
    exact List.mem_map_of_mem (List.mem_append.mpr hy)
  rw [List.flatMap_append, List.flatMap_cons,
    List.flatMap_eq_nil_iff.mpr fun y hy => hother y (Or.inl hy),
    List.flatMap_eq_nil_iff.mpr fun y hy => hother y (Or.inr hy), List.nil_append, List.append_nil]

theorem filter_of_nodup (hd : (xs.map key).Nodup) (hx : x ∈ xs) :
    xs.filter (key · == key x) = [x] := by
  have hfilter : xs.filter (key · == key x) = xs.flatMap fun y => [y].filter (key · == key x) := by
    rw [← List.filter_flatMap, List.flatMap_singleton']
  rw [hfilter, flatMap_of_nodup hd hx fun y _ hne => by simp [hne]]
  simp

end Nodup

/-! ## Imports between two files -/

def importsOf (outlines : Table String Outline) (external : Bool) (x : String × Outline)
    (v : String) : List ImportLine :=
  x.2.imports.filter fun i => resolveImport outlines x.1 i.source external == some v

def importEdge (u v : String) (i : ImportLine) : Edge :=
  Edge.between (nodeId "file" u) (nodeId "file" v) "imports" (.real 1) (some i.line)

def importKey (u v : String) : String := edgeKey (nodeId "file" u) "imports" (nodeId "file" v)

@[simp]
theorem keyOf_importEdge (u v : String) (i : ImportLine) :
    Draft.keyOf (importEdge u v i) = importKey u v := rfl

/-- The edge for imports of a file: weight and count are their number, the line is the first. -/
def importsEdge (u v : String) (imports : List ImportLine) : Edge where
  id := importKey u v
  source := nodeId "file" u
  target := nodeId "file" v
  kind := "imports"
  weight := .real (nearestWhole (min imports.length exactLimit : Nat))
  lineNumber := imports.head?.map (·.line)
  count := imports.length

theorem mem_keys_of_resolveImport {outlines : Table String Outline} {path source v : String}
    {external : Bool} (h : resolveImport outlines path source external = some v) :
    v ∈ outlines.keys := by
  have hending : ∀ written, withEnding? outlines written = some v → v ∈ outlines.keys :=
    fun written hw => Table.has_iff.mp (List.find?_some hw)
  unfold resolveImport at h
  split at h
  · exact hending _ h
  · split at h
    · cases h
    · exact hending _ h

namespace Assembly

variable {a : Assembly} {options : BuildOptions} {u v : String} {o : Outline}

/-- The outlined files have nodes, and their paths and ids differ and hold no more colons. -/
structure FilesKnown (a : Assembly) : Prop where
  fileIds : ∀ p, a.fileIds.get? p = if p ∈ a.outlines.keys then some (nodeId "file" p) else none
  distinct : a.outlines.keys.Nodup
  colon : ∀ p ∈ a.outlines.keys, ':' ∉ p.toList
  ids : ∀ p ∈ a.outlines.keys, ∀ q ∈ a.outlines.keys, nodeId "file" p = nodeId "file" q → p = q

namespace FilesKnown

theorem importEdge?_eq (h : a.FilesKnown) (external : Bool) (hu : u ∈ a.outlines.keys)
    (i : ImportLine) :
    a.importEdge? external u (nodeId "file" u) i =
      (resolveImport a.outlines u i.source external).bind fun v =>
        if v = u then none else some (importEdge u v i) := by
  unfold importEdge?
  cases hv : resolveImport a.outlines u i.source external with
  | none => rfl
  | some v =>
    have hmem : v ∈ a.outlines.keys := mem_keys_of_resolveImport hv
    rw [Option.bind_some, h.fileIds, if_pos hmem, Option.bind_some, Option.bind_some]
    by_cases hvu : v = u
    · simp [hvu]
    · have hne : nodeId "file" v ≠ nodeId "file" u := fun hid => hvu (h.ids v hmem u hu hid)
      simp [hvu, hne, importEdge]

theorem importEdgesOf_eq (h : a.FilesKnown) (external : Bool) (hu : u ∈ a.outlines.keys) :
    a.importEdgesOf external (u, o) =
      o.imports.filterMap (a.importEdge? external u (nodeId "file" u)) := by
  rw [importEdgesOf, h.fileIds, if_pos hu]

theorem sameEnds_of_keyOf_eq (h : a.FilesKnown) {e : Edge} (hu : u ∈ a.outlines.keys) {u' : String}
    (hu' : u' ∈ a.outlines.keys) (he : e.source = nodeId "file" u')
    (hkind : ':' ∉ e.kind.toList) (hkey : Draft.keyOf e = importKey u v) (i : ImportLine) :
    e.SameEnds (importEdge u v i) := by
  have himports : ':' ∉ "imports".toList := by decide
  exact Draft.sameEnds_of_keyOf_eq he rfl (h.colon u' hu') (h.colon u hu) hkind himports hkey

theorem importKey_eq_iff (h : a.FilesKnown) {u' v' : String} (hu : u ∈ a.outlines.keys)
    (hv : v ∈ a.outlines.keys) (hu' : u' ∈ a.outlines.keys) (hv' : v' ∈ a.outlines.keys) :
    importKey u' v' = importKey u v ↔ u' = u ∧ v' = v := by
  constructor
  · intro hkey
    have himports : ':' ∉ "imports".toList := by decide
    obtain ⟨hsource, -, htarget⟩ :=
      h.sameEnds_of_keyOf_eq (e := importEdge u' v' default) hu hu' rfl himports hkey default
    exact ⟨h.ids u' hu' u hu hsource, h.ids v' hv' v hv htarget⟩
  · rintro ⟨rfl, rfl⟩
    rfl

theorem filter_importEdgesOf (h : a.FilesKnown) (external : Bool) {x : String × Outline}
    (hx : x.1 ∈ a.outlines.keys) (hu : u ∈ a.outlines.keys) (hv : v ∈ a.outlines.keys) :
    (a.importEdgesOf external x).filter (Draft.keyOf · == importKey u v) =
      if x.1 = u ∧ u ≠ v then (importsOf a.outlines external x v).map (importEdge u v) else [] := by
  have hstep : ∀ i, (a.importEdge? external x.1 (nodeId "file" x.1) i).filter
      (Draft.keyOf · == importKey u v) =
        if x.1 = u ∧ u ≠ v ∧ resolveImport a.outlines x.1 i.source external = some v then
          some (importEdge u v i)
        else none := by
    intro i
    rw [h.importEdge?_eq external hx]
    cases hresolved : resolveImport a.outlines x.1 i.source external with
    | none => simp
    | some v' =>
      have hkey := h.importKey_eq_iff hu hv hx (mem_keys_of_resolveImport hresolved)
      by_cases hself : v' = x.1
      · have hno : ¬ (x.1 = u ∧ u ≠ v ∧ some v' = some v) := by
          rintro ⟨hxu, hne, hsame⟩
          exact hne (hxu ▸ hself ▸ Option.some.inj hsame)
        rw [if_neg hno, Option.bind_some, if_pos hself]
        rfl
      · rw [Option.bind_some, if_neg hself, Option.filter_some, keyOf_importEdge]
        by_cases hpair : x.1 = u ∧ v' = v
        · obtain ⟨rfl, rfl⟩ := hpair
          simp [Ne.symm hself]
        · have hno : ¬ (x.1 = u ∧ u ≠ v ∧ some v' = some v) := fun hall =>
            hpair ⟨hall.1, Option.some.inj hall.2.2⟩
          rw [if_neg hno, if_neg (by rwa [beq_iff_eq, hkey])]
  rw [h.importEdgesOf_eq external hx, List.filter_filterMap]
  simp only [hstep]
  split
  · next hpair =>
    rw [importsOf, ← List.filterMap_eq_map, List.filterMap_filter]
    simp [hpair]
  · next hpair =>
    refine List.filterMap_eq_nil_iff.mpr fun i _ => if_neg ?_
    exact fun hall => hpair ⟨hall.1, hall.2.1⟩

theorem filter_importEdges (h : a.FilesKnown) (himports : "imports" ∈ options.filter.edgeKinds)
    (hu : (u, o) ∈ a.outlines) (hv : v ∈ a.outlines.keys) :
    (a.importEdges options).filter (Draft.keyOf · == importKey u v) =
      if u = v then []
      else (importsOf a.outlines options.external (u, o) v).map (importEdge u v) := by
  have hukey : u ∈ a.outlines.keys := List.mem_map_of_mem hu
  rw [importEdges, if_pos (List.contains_iff_mem.mpr himports), List.filter_flatMap,
    flatMap_of_nodup h.distinct hu, h.filter_importEdgesOf options.external hukey hukey hv]
  · simp
  · intro x hx hne
    rw [h.filter_importEdgesOf options.external (List.mem_map_of_mem hx) hukey hv]
    exact if_neg fun hall => hne hall.1

end FilesKnown

theorem FilesKnown.mem_importEdges (h : a.FilesKnown) {e : Edge} (he : e ∈ a.importEdges options) :
    ∃ u ∈ a.outlines.keys, ∃ v ∈ a.outlines.keys, ∃ i, e = importEdge u v i := by
  unfold importEdges at he
  split at he
  · obtain ⟨x, hx, he⟩ := List.mem_flatMap.mp he
    have hxkey : x.1 ∈ a.outlines.keys := List.mem_map_of_mem hx
    rw [h.importEdgesOf_eq options.external hxkey] at he
    obtain ⟨i, -, hi⟩ := List.mem_filterMap.mp he
    rw [h.importEdge?_eq options.external hxkey] at hi
    obtain ⟨v, hv, hi⟩ := Option.bind_eq_some_iff.mp hi
    split at hi
    · cases hi
    · exact ⟨x.1, hxkey, v, mem_keys_of_resolveImport hv, i, (Option.some.inj hi).symm⟩
  · cases he

end Assembly

/-! ## What is stored -/

theorem Computed.foldl_real (xs : List Float) (x : Float) :
    (xs.map Computed.real).foldl (· + ·) (.real x) = .real (xs.foldl (· + ·) x) := by
  induction xs generalizing x with
  | nil => rfl
  | cons y ys ih => exact ih (x + y)

theorem foldl_count_ones {α : Type} (xs : List α) (count : Int) :
    (xs.map fun _ => (1 : Int)).foldl (· + ·) count = count + xs.length := by
  induction xs generalizing count with
  | nil => simp
  | cons x xs ih =>
    rw [List.map_cons, List.foldl_cons, ih, List.length_cons]
    omega

theorem Amount.eq_real {a : Amount} {x : Float} (h : a.computed = .real x) : a = .real x := by
  cases a with
  | whole n => cases h
  | real y => exact congrArg Amount.real (Computed.real.inj h)
  | flag b => cases h

theorem Edge.Gathers.eq_importsEdge {e : Edge} {u v : String} {imports : List ImportLine}
    (h : e.Gathers (imports.map (importEdge u v))) (hid : e.id = importKey u v) :
    e = importsEdge u v imports := by
  obtain ⟨first, rest, rfl⟩ := List.exists_cons_of_ne_nil (by simpa using h.ne_nil)
  have hweight : e.weight = .real (nearestWhole (min (first :: rest).length exactLimit : Nat)) := by
    have hones : (rest.map (importEdge u v)).map (fun p => p.weight.computed) =
        (List.replicate rest.length 1).map Computed.real := by
      rw [List.map_map, List.map_replicate, ← List.map_const']
      rfl
    refine Amount.eq_real (h.weight.trans ?_)
    rw [List.map_cons, List.map_cons, hones]
    exact (Computed.foldl_real _ 1).trans (congrArg Computed.real (foldl_add_one rest.length))
  have hcount : e.count = (first :: rest).length := by
    rw [h.count, List.map_map]
    exact (foldl_count_ones (first :: rest) 0).trans (Int.zero_add _)
  obtain ⟨p, hp, he⟩ := h.first
  obtain rfl : importEdge u v first = p := by simpa using hp
  rw [he, hid, hweight, hcount]
  rfl

def Edge.isImport (e : Edge) (u v : String) : Bool :=
  e.kind == "imports" && e.source == nodeId "file" u && e.target == nodeId "file" v

theorem Edge.isImport_iff {e : Edge} {u v : String} :
    e.isImport u v = true ↔ e.SameEnds (importEdge u v default) := by
  simp only [isImport, Bool.and_eq_true, beq_iff_eq, SameEnds]
  constructor
  · rintro ⟨⟨hkind, hsource⟩, htarget⟩
    exact ⟨hsource, hkind, htarget⟩
  · rintro ⟨hsource, hkind, htarget⟩
    exact ⟨⟨hkind, hsource⟩, htarget⟩

namespace Assembly

/-- The draft holds what is inside the files, and their imports. -/
structure Imports (a : Assembly) (options : BuildOptions) (inside : List Edge) : Prop extends
    a.FilesKnown where
  collects : a.draft.Collects (inside ++ a.importEdges options)
  enclosed : ∀ e ∈ inside, e.kind = containment ∧ ∃ path, a.fileIds.get? path = some e.source

namespace Imports

variable {a : Assembly} {options : BuildOptions} {inside : List Edge} {u v : String} {o : Outline}
  {e : Edge}

theorem exists_source (h : a.Imports options inside) (he : e ∈ inside ++ a.importEdges options) :
    ':' ∉ e.kind.toList ∧ ∃ p ∈ a.outlines.keys, e.source = nodeId "file" p := by
  rcases List.mem_append.mp he with he | he
  · obtain ⟨hkind, path, hpath⟩ := h.enclosed e he
    rw [h.fileIds] at hpath
    split at hpath
    · next hmem => exact ⟨hkind ▸ by decide, path, hmem, (Option.some.inj hpath).symm⟩
    · cases hpath
  · obtain ⟨u, hu, v, -, i, rfl⟩ := h.mem_importEdges he
    have hkind : ':' ∉ "imports".toList := by decide
    exact ⟨hkind, u, hu, rfl⟩

theorem isImport_eq (h : a.Imports options inside) (hu : u ∈ a.outlines.keys)
    (he : e ∈ a.draft.edges) : e.isImport u v = (e.id == importKey u v) := by
  obtain ⟨p, hp, hkey, hends⟩ := h.collects.exists_added he
  obtain ⟨hkind, q, hq, hsource⟩ := h.exists_source hp
  rw [Bool.eq_iff_iff, Edge.isImport_iff, beq_iff_eq, ← hkey]
  constructor
  · rintro ⟨hs, hk, ht⟩
    rw [Draft.keyOf, ← hends.1, ← hends.2.1, ← hends.2.2, hs, hk, ht]
    rfl
  · intro hid
    obtain ⟨hs, hk, ht⟩ := h.sameEnds_of_keyOf_eq hu hq hsource hkind hid default
    exact ⟨hends.1.trans hs, hends.2.1.trans hk, hends.2.2.trans ht⟩

theorem filter_isImport (h : a.Imports options inside)
    (himports : "imports" ∈ options.filter.edgeKinds) (hu : (u, o) ∈ a.outlines)
    (hv : v ∈ a.outlines.keys) :
    a.draft.edges.filter (·.isImport u v) =
      if u = v ∨ importsOf a.outlines options.external (u, o) v = [] then []
      else [importsEdge u v (importsOf a.outlines options.external (u, o) v)] := by
  have hukey : u ∈ a.outlines.keys := List.mem_map_of_mem hu
  have hinside : inside.filter (Draft.keyOf · == importKey u v) = [] := by
    refine List.filter_eq_nil_iff.mpr fun e he hkey => ?_
    obtain ⟨hkind, q, hq, hsource⟩ := h.exists_source (List.mem_append_left _ he)
    obtain ⟨-, himport, -⟩ :=
      h.sameEnds_of_keyOf_eq hukey hq hsource hkind (beq_iff_eq.mp hkey) default
    have hdiffer : containment ≠ "imports" := by decide
    exact hdiffer ((h.enclosed e he).1.symm.trans himport)
  have hparts : (inside ++ a.importEdges options).filter (Draft.keyOf · == importKey u v) =
      if u = v then []
      else (importsOf a.outlines options.external (u, o) v).map (importEdge u v) := by
    rw [List.filter_append, hinside, List.nil_append, h.filter_importEdges himports hu hv]
  rw [List.filter_congr fun e he => h.isImport_eq hukey he]
  split
  · next hnone =>
    have hempty :
        (inside ++ a.importEdges options).filter (Draft.keyOf · == importKey u v) = [] := by
      rcases hnone with hself | hnone
      · rw [hparts, if_pos hself]
      · rw [hparts, hnone, List.map_nil, ite_self]
    refine List.filter_eq_nil_iff.mpr fun e he hid => ?_
    obtain ⟨p, hp, hkey, -⟩ := h.collects.exists_added he
    exact List.filter_eq_nil_iff.mp hempty p hp (hkey ▸ hid)
  · next hsome =>
    obtain ⟨hne, hrecords⟩ := not_or.mp hsome
    rw [if_neg hne] at hparts
    obtain ⟨i, hi⟩ := List.exists_mem_of_ne_nil _ hrecords
    have hmem : importEdge u v i ∈ inside ++ a.importEdges options := by
      have hpart := List.mem_map_of_mem (f := importEdge u v) hi
      rw [← hparts] at hpart
      exact (List.mem_filter.mp hpart).1
    obtain ⟨e, he, hid⟩ := h.collects.exists_stored hmem
    rw [keyOf_importEdge] at hid
    have hgathers := h.collects.gathers e he
    rw [hid, hparts] at hgathers
    rw [← hid, filter_of_nodup h.collects.nodup_edgeIds he, hgathers.eq_importsEdge hid]

end Imports

end Assembly

/-! ## The graph of a repository -/

theorem mem_ids_filtered {a₀ a : Assembly} {f : GraphFilter} (hfresh : a₀.draft = {})
    (hgrow : Assembly.GrowsInto (a₀.addFiles f) a) (hfile : "file" ∈ f.nodeKinds)
    (hthreshold : f.threshold = none) (hexposure : f.exposure = .all) (now : String) {path : String}
    (hpath : path ∈ a₀.outlines.keys) :
    nodeId "file" path ∈ ((a.draft.graph now).filtered f).ids := by
  have hlabels : LabelsOf a₀.outlines.keys (fileLabels (a₀.addFiles f).draft.nodes) := by
    rw [a₀.draft_addFiles hfile, hfresh]
    exact labelsOf_foldl a₀.outlines
  have hkept : fileLabels ((a.draft.graph now).filtered f).nodes =
      fileLabels (a₀.addFiles f).draft.nodes := by
    rw [fileLabels_filtered _ hthreshold hexposure, if_pos hfile, fileLabels_graph,
      hgrow.fileLabels_eq fun x hx => ⟨x.2, (hlabels.mem hx).2⟩]
  obtain ⟨x, hx, hid⟩ := hlabels.exists_label hpath
  obtain ⟨n, hn, hlabel⟩ := List.mem_filterMap.mp (hkept ▸ hx)
  unfold Node.fileLabel? at hlabel
  split at hlabel
  · obtain rfl := Option.some.inj hlabel
    exact List.mem_map.mpr ⟨n, hn, hid⟩
  · cases hlabel

theorem Assembly.nodup_keys_of_outlined {w : Workspace} {repo : Path} {files : List Path}
    {a : Assembly} (h : outlined w repo files = .ok a) : a.outlines.keys.Nodup := by
  obtain ⟨paths, -, hkeys⟩ := bind_eq_ok.mp (parsedPaths_of_outlined h)
  rw [← Except.ok.inj hkeys]
  exact nodup_eraseDups paths

namespace Workspace

variable {w : Workspace} {repo root : Path} {options : BuildOptions} {knowledge : KnowledgeSource}
  {now : String} {g : Graph}

theorem exists_assemble_of_buildGraph (hroot : w.rootAt? repo options.rootFile = .ok (some root))
    (hknown : ∀ hits, knowledge options.search = .ok hits → hits = [])
    (hthreshold : options.filter.threshold = none)
    (hg : (w.buildGraph repo knowledge options now).graph = .ok g) :
    ∃ a, assemble w repo options (w.discover root repo options.discovery) = .ok a ∧
      ((a.draft.graph now).filtered options.filter).SameBare g := by
  have hnone : (knowledge options.search).toOption.getD [] = [] := by
    cases hfound : knowledge options.search with
    | error fault => rfl
    | ok hits => exact hknown hits hfound
  obtain ⟨a, rootId, discovered, ha, hfinish⟩ := exists_finish_of_buildGraph hroot hg
  rw [hnone] at ha
  refine ⟨a, ?_, (assembledWith_sound ha).sameBare_finish hthreshold hfinish⟩
  obtain ⟨b, hb, hnil⟩ := bind_eq_ok.mp ha
  rw [hb, ← hnil]
  rfl

/-- **The edges of imports.** Where the parsed paths hold no colon and have different ids, an edge
leads from a file to another just if an import of the one means the other, and it counts these
imports. -/
theorem imports_of_records (w : Workspace) (repo : Path) (knowledge : KnowledgeSource)
    (options : BuildOptions) (now : String) {root : Path} {outlines : Table String Outline}
    {g : Graph} (hroot : w.rootAt? repo options.rootFile = .ok (some root))
    (hthreshold : options.filter.threshold = none) (hexposure : options.filter.exposure = .all)
    (hfile : "file" ∈ options.filter.nodeKinds) (himports : "imports" ∈ options.filter.edgeKinds)
    (hknown : ∀ hits, knowledge options.search = .ok hits → hits = [])
    (hparsed : Assembly.outlined w repo (w.discover root repo options.discovery) =
        .ok { outlines := outlines })
    (hcolon : ∀ p ∈ outlines.keys, ':' ∉ p.toList)
    (hids : ∀ p ∈ outlines.keys, ∀ q ∈ outlines.keys, nodeId "file" p = nodeId "file" q → p = q)
    (hg : (w.buildGraph repo knowledge options now).graph = .ok g) :
    (∀ u o v, (u, o) ∈ outlines → v ∈ outlines.keys →
      nodeId "file" u ∈ g.ids ∧
      g.edges.filter (·.isImport u v) =
        if u = v ∨ importsOf outlines options.external (u, o) v = [] then []
        else [importsEdge u v (importsOf outlines options.external (u, o) v)]) ∧
    ∀ e ∈ g.edges, e.kind = "imports" →
      ∃ u ∈ outlines.keys, ∃ v ∈ outlines.keys, e.isImport u v = true := by
  obtain ⟨a, ha, hbare⟩ := exists_assemble_of_buildGraph hroot hknown hthreshold hg
  obtain ⟨houtlines, hfileIds, -, inside, hcollects, hinside⟩ := exists_collected hparsed ha
  have hnodup : outlines.keys.Nodup := Assembly.nodup_keys_of_outlined hparsed
  have hkept : ∀ p ∈ outlines.keys, nodeId "file" p ∈ g.ids := by
    intro p hp
    rw [assemble, hparsed, ok_bind] at ha
    obtain rfl := Except.ok.inj ha
    rw [hbare.ids]
    exact mem_ids_filtered rfl ((Assembly.growsInto_addSymbols options.filter _).trans
      (Assembly.growsInto_addImports options _)) hfile hthreshold hexposure now hp
  obtain rfl : a.outlines = outlines := houtlines
  have hall : a.Imports options inside := by
    refine ⟨⟨fun p => ?_, hnodup, hcolon, hids⟩, hcollects, hinside⟩
    rw [hfileIds, Assembly.get?_fileIds_addFiles _ hfile]
    rfl
  have hedges := hbare.edges_eq
  refine ⟨fun u o v hu hv => ⟨hkept u (List.mem_map_of_mem hu), ?_⟩, fun e he hkind => ?_⟩
  · -- the filter keeps all edges between files
    rw [← hall.filter_isImport himports hu hv, hedges, List.filter_filter]
    refine List.filter_congr fun e _ => ?_
    by_cases himport : e.isImport u v = true
    · obtain ⟨hsource, hkind, htarget⟩ := Edge.isImport_iff.mp himport
      have hu' : e.source ∈ g.ids := by
        rw [hsource]
        exact hkept u (List.mem_map_of_mem hu)
      have hv' : e.target ∈ g.ids := by
        rw [htarget]
        exact hkept v hv
      have hk' : e.kind ∈ options.filter.edgeKinds := by
        rw [hkind]
        exact himports
      simp [himport, hu', hv', hk']
    · simp [himport]
  · rw [hedges] at he
    obtain ⟨p, hp, -, hends⟩ := hall.collects.exists_added (List.mem_filter.mp he).1
    rcases List.mem_append.mp hp with hp | hp
    · have hdiffer : containment ≠ "imports" := by decide
      exact absurd ((hall.enclosed p hp).1.symm.trans (hends.2.1.symm.trans hkind)) hdiffer
    · obtain ⟨u, hu, v, hv, i, rfl⟩ := hall.mem_importEdges hp
      exact ⟨u, hu, v, hv, Edge.isImport_iff.mpr hends⟩

end Workspace

/-! ## A file that imports another twice -/

namespace Borrower

/-- The imports of the first file: twice the second one, and a library. -/
def imports : List ImportLine :=
  [{ source := "./b", line := 1 }, { source := "react", line := 2 },
    { source := "./b.ts", line := 4 }]

def sources : List (String × Outline) :=
  [("a.ts", { path := "", language := "typescript", imports := imports }),
    ("b.ts", { path := "", language := "typescript" })]

def folder : PlainFolder where
  files := sources.map fun x => (x.1, ⟨none, .ready x.2⟩)

theorem holds_sources : folder.Holds sources := ⟨rfl, by decide⟩

def options : BuildOptions where
  rootFile := "."
  layout := "hierarchical"

def drafted : Graph :=
  ((PlainFolder.assemblyOf sources options).draft.graph "").filtered options.filter

theorem exists_graph : ∃ g,
    (folder.workspace.buildGraph PlainFolder.repo (fun _ => .ok []) options "").graph = .ok g ∧
      drafted.SameBare g := by
  have hlaid : (drafted.laidOut (.ofName options.layout) buildFrame none).isOk = true := by
    decide +kernel
  have hassembled : folder.workspace.assembledWith PlainFolder.repo PlainFolder.repo options [] =
      .ok (PlainFolder.assemblyOf sources options) := holds_sources.assembledWith_nil rfl rfl
  exact PlainFolder.exists_graph (fun _ => .ok []) rfl rfl rfl hassembled hlaid

end Borrower

theorem Workspace.imports_of_records_borrower :
    ∃ g, (Borrower.folder.workspace.buildGraph PlainFolder.repo (fun _ => .ok []) Borrower.options
        "").graph = .ok g ∧
      g.edges.filter (·.isImport "a.ts" "b.ts") =
        [{ id := "file:a.ts:imports:file:b.ts", source := "file:a.ts", target := "file:b.ts",
           kind := "imports", weight := .real 2, lineNumber := some 1, count := 2 }] ∧
      g.edges.filter (·.isImport "b.ts" "a.ts") = [] := by
  obtain ⟨g, hg, -⟩ := Borrower.exists_graph
  have hparsed := Borrower.holds_sources.outlined_eq
  rw [← Borrower.holds_sources.discover_eq (f := Borrower.options.filter) rfl rfl] at hparsed
  obtain ⟨hedges, -⟩ := Borrower.folder.workspace.imports_of_records PlainFolder.repo
    (fun _ => .ok []) Borrower.options "" Borrower.folder.rootAt?_eq rfl rfl (by decide) (by decide)
    (fun hits hhits => (Except.ok.inj hhits).symm) hparsed (by decide) (by decide) hg
  have hedge : importsEdge "a.ts" "b.ts" [{ source := "./b", line := 1 },
      { source := "./b.ts", line := 4 }] =
        { id := "file:a.ts:imports:file:b.ts", source := "file:a.ts", target := "file:b.ts",
          kind := "imports", weight := .real 2, lineNumber := some 1, count := 2 } := by
    have hkey : importKey "a.ts" "b.ts" = "file:a.ts:imports:file:b.ts" := by decide
    have hsource : nodeId "file" "a.ts" = "file:a.ts" := by decide
    have htarget : nodeId "file" "b.ts" = "file:b.ts" := by decide
    have hweight : nearestWhole (min 2 exactLimit : Nat) = 2 := by decide +kernel
    rw [importsEdge, hkey, hsource, htarget]
    exact congrArg (fun x => Edge.mk _ _ _ _ (.real x) _ _ _) hweight
  refine ⟨g, hg, (hedges "a.ts" _ "b.ts" List.mem_cons_self (by decide)).2.trans ?_,
    (hedges "b.ts" _ "a.ts" (List.mem_cons_of_mem _ List.mem_cons_self) (by decide)).2⟩
  refine (if_neg ?_).trans (congrArg (fun e => [e]) hedge)
  rintro (hsame | hnone)
  · revert hsame
    decide
  · cases hnone

end CodeAtlas
