import CodeAtlas.Proofs.Assembly.WellFormed
import CodeAtlas.Proofs.Graph.EdgeKey

/-!
# The nodes of files

Characters that cannot stand in an id become underscores, so different paths can have one id; then
the last of them keeps the node. What is added later replaces no file.

* `Graph.fileNodes`, **`Workspace.fileNodes_of_parsed`**: which files have a node.
-/

namespace CodeAtlas

/-! ## Parsed paths -/

def Workspace.hasOutline (w : Workspace) (file : Path) : Bool :=
  w.outline file.text matches .ok (some _)

/-- The paths in the repository of the files that have an outline, each once. -/
def Workspace.parsedPaths (w : Workspace) (repo : Path) (files : List Path) :
    Except BuildError (List String) := do
  return (← (files.filter w.hasOutline).mapM (w.relative repo)).eraseDups

theorem Workspace.hasOutline_iff {w : Workspace} {file : Path} :
    w.hasOutline file = true ↔ ∃ o, w.outline file.text = .ok (some o) := by
  unfold hasOutline
  generalize w.outline file.text = outcome
  rcases outcome with fault | _ | o <;> simp

theorem foldl_addOnce (xs : List String) : xs.foldl addOnce [] = xs.eraseDups := by
  induction xs using List.reverseRecOn with
  | nil => rfl
  | append_singleton xs x ih => rw [List.foldl_append, ih, eraseDups_concat]; rfl

namespace Assembly

variable {w : Workspace} {repo : Path} {files : List Path}

theorem addOutline_of_none {repo file : Path} (hno : ∀ o, w.outline file.text ≠ .ok (some o))
    (outlines : Table String Outline) :
    addOutline w repo outlines file = .ok outlines := by
  unfold addOutline
  split
  · rename_i o ho
    exact absurd ho (hno o)
  · rfl

theorem keys_of_foldlM_addOutline {t₀ t : Table String Outline}
    (h : files.foldlM (addOutline w repo) t₀ = .ok t) :
    ∃ paths, (files.filter w.hasOutline).mapM (w.relative repo) = .ok paths ∧
      t.keys = paths.foldl addOnce t₀.keys := by
  induction files generalizing t₀ with
  | nil => exact ⟨[], rfl, congrArg Table.keys (Except.ok.inj h).symm⟩
  | cons file files ih =>
    rw [List.foldlM_cons] at h
    obtain ⟨t₁, ht₁, h⟩ := bind_eq_ok.mp h
    obtain ⟨paths, hpaths, hkeys⟩ := ih h
    by_cases hhas : w.hasOutline file = true
    · -- the outline is put under the path of the file
      obtain ⟨o, ho⟩ := Workspace.hasOutline_iff.mp hhas
      rw [addOutline_of_some ho] at ht₁
      obtain ⟨path, hpath, ht₁⟩ := bind_eq_ok.mp ht₁
      obtain rfl := Except.ok.inj ht₁
      refine ⟨path :: paths, ?_, ?_⟩
      · rw [List.filter_cons, if_pos hhas, List.mapM_cons]
        exact bind_eq_ok.mpr ⟨path, hpath, bind_eq_ok.mpr ⟨paths, hpaths, rfl⟩⟩
      · rw [hkeys, Table.keys_put, List.foldl_cons]
    · rw [addOutline_of_none fun o ho => hhas (Workspace.hasOutline_iff.mpr ⟨o, ho⟩)] at ht₁
      obtain rfl := Except.ok.inj ht₁
      exact ⟨paths, by rw [List.filter_cons, if_neg hhas, hpaths], hkeys⟩

/-- **The outlines** are listed under the parsed paths. -/
theorem parsedPaths_of_outlined {a : Assembly} (h : outlined w repo files = .ok a) :
    w.parsedPaths repo files = .ok a.outlines.keys := by
  obtain ⟨t, ht, h⟩ := bind_eq_ok.mp h
  obtain rfl := Except.ok.inj h
  obtain ⟨paths, hpaths, hkeys⟩ := keys_of_foldlM_addOutline ht
  rw [Workspace.parsedPaths, hpaths, hkeys]
  exact congrArg Except.ok (foldl_addOnce paths).symm

end Assembly

/-! ## Ids of kinds -/

theorem toList_nodeId (kind name : String) : (nodeId kind name).toList =
    kind.toList.map (fun c => if plainInId c then c else '_') ++
      ':' :: name.toList.map fun c => if plainInId c then c else '_' := by
  have hcolon : ":".toList = [':'] := rfl
  have hplain : plainInId ':' = true := rfl
  simp [nodeId, hcolon, hplain]

/-- The kind stands in an id as it is and ends at the first colon. -/
def standsInId (kind : String) : Bool := kind.toList.all fun c => plainInId c && c != ':'

theorem standsInId_iff {kind : String} :
    standsInId kind = true ↔ ∀ c ∈ kind.toList, plainInId c = true ∧ c ≠ ':' := by
  simp [standsInId]

/-- **An id tells of what kind it is.** -/
theorem kind_eq_of_nodeId_eq {kind kind' name name' : String} (hkind : standsInId kind = true)
    (hkind' : standsInId kind' = true) (h : nodeId kind name = nodeId kind' name') :
    kind = kind' := by
  have hsame : ∀ k, standsInId k = true →
      k.toList.map (fun c => if plainInId c then c else '_') = k.toList := fun k hk => by
    conv_rhs => rw [← List.map_id k.toList]
    exact List.map_congr_left fun c hc => if_pos (standsInId_iff.mp hk c hc).1
  have hlist := congrArg String.toList h
  rw [toList_nodeId, toList_nodeId, hsame kind hkind, hsame kind' hkind',
    char_cut_first fun hc => (standsInId_iff.mp hkind _ hc).2 rfl] at hlist
  rcases hlist with ⟨hlist, -⟩ | ⟨w, hlist, -⟩
  · exact String.toList_inj.mp hlist
  · have hcolon : ':' ∈ kind'.toList := by simp [hlist]
    exact absurd rfl (standsInId_iff.mp hkind' _ hcolon).2

variable (kind : String) (g : Graph) {f : GraphFilter}

theorem symbolKind_mem :
    symbolKind kind ∈ ["class", "function", "method", "interface", "variable"] := by
  unfold symbolKind
  split
  · rename_i h
    exact List.contains_iff_mem.mp h
  · decide

theorem standsInId_symbolKind :
    standsInId (symbolKind kind) = true ∧ symbolKind kind ≠ "file" := by
  have hall : ∀ k ∈ ["class", "function", "method", "interface", "variable"],
      standsInId k = true ∧ k ≠ "file" := by decide
  exact hall _ (symbolKind_mem kind)

/-! ## Labels -/

def Node.fileLabel? (n : Node) : Option (String × String) :=
  if n.kind = "file" then some (n.id, n.path) else none

def fileLabels (nodes : List Node) : List (String × String) := nodes.filterMap Node.fileLabel?

theorem fileLabels_of_bare {nodes nodes' : List Node}
    (h : nodes'.map Node.bare = nodes.map Node.bare) : fileLabels nodes' = fileLabels nodes := by
  have hbare : ∀ ns : List Node, fileLabels (ns.map Node.bare) = fileLabels ns := fun ns =>
    List.filterMap_map
  rw [← hbare nodes', h, hbare nodes]

theorem fileLabels_addNode {d : Draft} {n : Node} (hkind : n.kind ≠ "file")
    (hid : ∀ x ∈ fileLabels d.nodes, x.1 ≠ n.id) :
    fileLabels (d.addNode n).nodes = fileLabels d.nodes := by
  have hn : n.fileLabel? = none := if_neg hkind
  by_cases hmem : n.id ∈ d.nodes.map (·.id)
  · rw [Draft.addNode_of_mem hmem, fileLabels, List.filterMap_map]
    refine List.filterMap_congr fun m hm => ?_
    by_cases hsame : m.id = n.id
    · have hm' : m.fileLabel? = none := by
        refine if_neg fun hfile => hid (m.id, m.path) ?_ hsame
        exact List.mem_filterMap.mpr ⟨m, hm, if_pos hfile⟩
      simp [hsame, hn, hm']
    · simp [hsame]
  · rw [Draft.addNode_of_notMem hmem, fileLabels, List.filterMap_append]
    simp [hn, fileLabels]

namespace Assembly

variable {a a' : Assembly}

theorem Grows.fileLabels_eq (h : Grows a a')
    (ha : ∀ x ∈ fileLabels a.draft.nodes, ∃ path, x.1 = nodeId "file" path) :
    fileLabels a'.draft.nodes = fileLabels a.draft.nodes := by
  cases h with
  | symbol path language e ids =>
    obtain ⟨hkind, hne⟩ := standsInId_symbolKind e.kind
    refine fileLabels_addNode hne fun x hx hid => ?_
    obtain ⟨p, hp⟩ := ha x hx
    exact hne (kind_eq_of_nodeId_eq hkind (by decide) (hid.symm.trans hp))
  | edge e => rw [Draft.nodes_addEdge]
  | measure id change => exact fileLabels_of_bare (a.draft.bare_changeNode id change)

/-- **Growth** leaves the files alone. -/
theorem GrowsInto.fileLabels_eq (h : GrowsInto a a')
    (ha : ∀ x ∈ fileLabels a.draft.nodes, ∃ path, x.1 = nodeId "file" path) :
    fileLabels a'.draft.nodes = fileLabels a.draft.nodes := by
  induction h with
  | refl => rfl
  | tail _ hstep ih => exact (hstep.fileLabels_eq (ih ▸ ha)).trans ih

end Assembly

/-! ## The files of an assembly -/

theorem Draft.foldl_addNode (ns : List Node) :
    (ns.foldl addNode {}).nodes.map (·.id) = (ns.map (·.id)).eraseDups ∧
      ∀ n ∈ (ns.foldl addNode {}).nodes, (ns.filter (·.id == n.id)).getLast? = some n := by
  have hcalls : Drafting.ofCalls (ns.map .node) = ⟨ns.foldl addNode {}, ns.map .node⟩ := by
    unfold Drafting.ofCalls
    induction ns using List.reverseRecOn with
    | nil => rfl
    | append_singleton ns n ih =>
      rw [List.map_append, List.foldl_append, ih, List.foldl_append]
      rfl
  have hadded : (⟨ns.foldl addNode {}, ns.map .node⟩ : Drafting).nodes = ns := by
    rw [Drafting.nodes, List.filterMap_map]
    exact List.filterMap_some
  have hkept := Drafting.kept_ofCalls (ns.map .node)
  rw [hcalls] at hkept
  have hids := hkept.nodeIds
  have hlatest := hkept.latest
  rw [hadded] at hids hlatest
  exact ⟨hids, hlatest⟩

/-- The labels of the files: one for each id, with the last path of that id. -/
structure LabelsOf (paths : List String) (labels : List (String × String)) : Prop where
  ids : labels.map Prod.fst = (paths.map (nodeId "file")).eraseDups
  latest : ∀ x ∈ labels, (paths.filter (nodeId "file" · == x.1)).getLast? = some x.2

theorem labelsOf_foldl (outlines : Table String Outline) :
    LabelsOf outlines.keys (fileLabels
      ((outlines.map fun x => Assembly.fileNode x.1 x.2).foldl Draft.addNode {}).nodes) := by
  obtain ⟨hids, hlatest⟩ :=
    Draft.foldl_addNode (outlines.map fun x => Assembly.fileNode x.1 x.2)
  generalize ((outlines.map fun x => Assembly.fileNode x.1 x.2).foldl Draft.addNode {}).nodes =
    nodes at hids hlatest
  -- the last outline with the id of a node is the one that the node was made from
  have hnode : ∀ n ∈ nodes, ∃ x, (outlines.filter (nodeId "file" ·.1 == n.id)).getLast? = some x ∧
      Assembly.fileNode x.1 x.2 = n := by
    intro n hn
    have hlast := hlatest n hn
    rw [List.filter_map, List.getLast?_map] at hlast
    exact Option.map_eq_some_iff.mp hlast
  have hlabels : fileLabels nodes = nodes.map fun n => (n.id, n.path) := by
    rw [← List.filterMap_eq_map]
    refine List.filterMap_congr fun n hn => ?_
    obtain ⟨x, -, rfl⟩ := hnode n hn
    exact if_pos rfl
  rw [hlabels]
  refine ⟨?_, fun y hy => ?_⟩
  · rw [List.map_map, Table.keys, List.map_map]
    rw [List.map_map] at hids
    exact hids
  · obtain ⟨n, hn, rfl⟩ := List.mem_map.mp hy
    obtain ⟨x, hx, rfl⟩ := hnode n hn
    have hkeys := congrArg (Option.map Prod.fst) hx
    rw [← List.getLast?_map] at hkeys
    rw [Table.keys, List.filter_map]
    exact hkeys

namespace LabelsOf

variable {paths : List String} {labels : List (String × String)} {x : String × String}

theorem mem (h : LabelsOf paths labels) (hx : x ∈ labels) :
    x.2 ∈ paths ∧ x.1 = nodeId "file" x.2 := by
  obtain ⟨hmem, hid⟩ := List.mem_filter.mp (List.mem_of_getLast? (h.latest x hx))
  exact ⟨hmem, (beq_iff_eq.mp hid).symm⟩

theorem nodup (h : LabelsOf paths labels) : (labels.map Prod.fst).Nodup := h.ids ▸ nodup_eraseDups _

theorem exists_label (h : LabelsOf paths labels) {path : String} (hpath : path ∈ paths) :
    ∃ x ∈ labels, x.1 = nodeId "file" path := by
  have hid : nodeId "file" path ∈ labels.map Prod.fst := by
    rw [h.ids, List.mem_eraseDups]
    exact List.mem_map_of_mem hpath
  exact List.mem_map.mp hid

/-- **One label for each path** is the same as different ids for different paths. -/
theorem count_eq_one_iff (h : LabelsOf paths labels) :
    (∀ p ∈ paths, (labels.map Prod.snd).count p = 1) ↔
      ∀ p ∈ paths, ∀ q ∈ paths, nodeId "file" p = nodeId "file" q → p = q := by
  constructor
  · intro hone p hp q hq hid
    have hlabel : ∀ r ∈ paths, (nodeId "file" r, r) ∈ labels := by
      intro r hr
      have hmem : r ∈ labels.map Prod.snd := List.count_pos_iff.mp (hone r hr ▸ Nat.one_pos)
      obtain ⟨x, hx, rfl⟩ := List.mem_map.mp hmem
      exact (h.mem hx).2 ▸ hx
    exact congrArg Prod.snd (List.inj_on_of_nodup_map h.nodup (hlabel p hp) (hlabel q hq) hid)
  · intro hinj p hp
    obtain ⟨x, hx, hid⟩ := h.exists_label hp
    obtain ⟨hmem, hx1⟩ := h.mem hx
    obtain rfl : x.2 = p := hinj x.2 hmem p hp (hx1.symm.trans hid)
    -- labels with one path have one id
    have hnodup : (labels.map Prod.snd).Nodup := by
      refine List.Nodup.of_map (nodeId "file") ?_
      have hids : (labels.map Prod.snd).map (nodeId "file") = labels.map Prod.fst := by
        rw [List.map_map]
        exact List.map_congr_left fun y hy => (h.mem hy).2.symm
      rw [hids]
      exact h.nodup
    exact List.count_eq_one_of_mem hnodup (List.mem_map_of_mem hx)

end LabelsOf

theorem Assembly.draft_addFiles (a : Assembly) (hf : "file" ∈ f.nodeKinds) :
    (a.addFiles f).draft =
      (a.outlines.map fun x => fileNode x.1 x.2).foldl Draft.addNode a.draft := by
  have hwanted : (f.nodeKinds.contains "file" || f.nodeKinds.contains "module") = true := by
    simp [hf]
  rw [addFiles, if_pos hwanted, List.foldl_map]
  generalize a.outlines = outlines
  induction outlines generalizing a with
  | nil => rfl
  | cons x outlines ih => exact ih (a.addFile x.1 x.2)

/-! ## The files of a graph -/

def Graph.fileNodes (g : Graph) : List Node := g.nodes.filter (·.kind == "file")

theorem Graph.fileLabels_eq :
    fileLabels g.nodes = g.fileNodes.map fun n => (n.id, n.path) := by
  rw [fileNodes, ← List.filterMap_eq_map, List.filterMap_filter, fileLabels]
  refine List.filterMap_congr fun n _ => ?_
  simp [Node.fileLabel?]

theorem fileLabels_filtered (hthreshold : f.threshold = none) (hexposure : f.exposure = .all) :
    fileLabels (g.filtered f).nodes = if "file" ∈ f.nodeKinds then fileLabels g.nodes else [] := by
  have hkeeps : ∀ n : Node, f.keepsNode n = f.nodeKinds.contains n.kind := fun n => by
    simp [GraphFilter.keepsNode, GraphFilter.keepsScored, hthreshold, hexposure, Exposure.keeps]
  have hlabels : fileLabels (g.filtered f).nodes =
      g.nodes.filterMap fun n => if f.keepsNode n then n.fileLabel? else none := by
    dsimp only [Graph.filtered, Graph.keeping, fileLabels]
    rw [List.filterMap_map, List.filterMap_filter]
    rfl
  rw [hlabels]
  split
  · rename_i hfile
    refine List.filterMap_congr fun n _ => ?_
    by_cases hn : n.kind = "file" <;> simp [hkeeps, hn, hfile, Node.fileLabel?]
  · rename_i hfile
    refine List.filterMap_eq_nil_iff.mpr fun n _ => ?_
    by_cases hn : n.kind = "file" <;> simp [hkeeps, hn, hfile, Node.fileLabel?]

theorem fileLabels_graph (d : Draft) (now : String) :
    fileLabels (d.graph now).nodes = fileLabels d.nodes := List.filterMap_map

/-- **Which files have a node.** Each id of a parsed path has one, with the last path of that id. So
each parsed path has a node just if their ids differ. -/
theorem Workspace.fileNodes_of_parsed (w : Workspace) (repo : Path) (knowledge : KnowledgeSource)
    (options : BuildOptions) (now : String) {root : Path} {g : Graph}
    (hroot : w.rootAt? repo options.rootFile = .ok (some root))
    (hthreshold : options.filter.threshold = none) (hexposure : options.filter.exposure = .all)
    (hg : (w.buildGraph repo knowledge options now).graph = .ok g) :
    ∃ parsed,
      w.parsedPaths repo (w.discover root repo options.discovery) =
          .ok parsed ∧
      ("file" ∉ options.filter.nodeKinds → g.fileNodes = []) ∧
      ("file" ∈ options.filter.nodeKinds →
        g.fileNodes.map (·.id) = (parsed.map (nodeId "file")).eraseDups ∧
        (∀ n ∈ g.fileNodes,
          (parsed.filter (nodeId "file" · == n.id)).getLast? = some n.path) ∧
        ((∀ p ∈ parsed, (g.fileNodes.map (·.path)).count p = 1) ↔
          ∀ p ∈ parsed, ∀ q ∈ parsed, nodeId "file" p = nodeId "file" q → p = q)) := by
  obtain ⟨a₀, a, rootId, discovered, enriched, h₀, hfresh, hgrow, hsound, hfinish⟩ :=
    exists_growth_of_buildGraph hroot hg
  have hbare := hsound.sameBare_finish hthreshold hfinish
  have hlabels : (g.fileNodes.map fun n => (n.id, n.path)) =
      if "file" ∈ options.filter.nodeKinds then fileLabels a.draft.nodes else [] := by
    rw [← g.fileLabels_eq, fileLabels_of_bare hbare.1, fileLabels_filtered _ hthreshold hexposure,
      fileLabels_graph]
  refine ⟨a₀.outlines.keys, Assembly.parsedPaths_of_outlined h₀, fun hfile => ?_, fun hfile => ?_⟩
  · rw [if_neg hfile] at hlabels
    exact List.map_eq_nil_iff.mp hlabels
  · rw [if_pos hfile] at hlabels
    have hadded : LabelsOf a₀.outlines.keys
        (fileLabels (a₀.addFiles options.filter).draft.nodes) := by
      rw [a₀.draft_addFiles hfile, hfresh]
      exact labelsOf_foldl a₀.outlines
    have hall : LabelsOf a₀.outlines.keys (g.fileNodes.map fun n => (n.id, n.path)) := by
      rw [hlabels, hgrow.fileLabels_eq fun x hx => ⟨x.2, (hadded.mem hx).2⟩]
      exact hadded
    have hids := hall.ids
    have hcount := hall.count_eq_one_iff
    simp only [List.map_map, Function.comp_def] at hids hcount
    exact ⟨hids, fun n hn => hall.latest (n.id, n.path) (List.mem_map_of_mem hn), hcount⟩

theorem Shelf.parsedPaths_eq :
    workspace.parsedPaths repo (sources.map fun (name, _) => repo.child name) =
      .ok ["a b.ts", "a_b.ts"] :=
  Assembly.parsedPaths_of_outlined outlined_eq

theorem Workspace.fileNodes_of_parsed_shelf :
    ∃ g, (Shelf.workspace.buildGraph Shelf.repo (fun _ => .ok []) Shelf.options "").graph = .ok g ∧
      g.fileNodes.map (·.id) = ["file:a_b.ts"] ∧
      ¬ ∀ p ∈ ["a b.ts", "a_b.ts"], (g.fileNodes.map (·.path)).count p = 1 := by
  obtain ⟨g, hg, -⟩ := Shelf.exists_graph
  obtain ⟨parsed, hparsed, -, hfile⟩ := Shelf.workspace.fileNodes_of_parsed Shelf.repo _
    Shelf.options "" Shelf.rootAt?_eq rfl rfl hg
  rw [Shelf.discover_eq, Shelf.parsedPaths_eq] at hparsed
  obtain rfl := Except.ok.inj hparsed
  obtain ⟨hids, -, hcount⟩ := hfile (by decide)
  refine ⟨g, hg, hids.trans (by decide), ?_⟩
  rw [hcount]
  decide

/-- **A file without a node.** Both files are parsed; the second has the id of the first. -/
theorem Shelf.file_lost_to_id :
    ∃ g, (workspace.buildGraph repo (fun _ => .ok []) options "").graph = .ok g ∧
      workspace.parsedPaths repo (workspace.discover repo repo options.discovery) =
          .ok ["a b.ts", "a_b.ts"] ∧
      g.fileNodes.map (fun n => (n.id, n.path)) = [("file:a_b.ts", "a_b.ts")] := by
  obtain ⟨g, hg, hbare⟩ := exists_graph
  refine ⟨g, hg, by rw [discover_eq, parsedPaths_eq], ?_⟩
  rw [← g.fileLabels_eq, fileLabels_of_bare hbare.1]
  decide

end CodeAtlas
