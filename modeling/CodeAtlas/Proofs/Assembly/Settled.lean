import CodeAtlas.Proofs.Assembly.Growth

/-!
# Graphs with matching parents and children

Growth keeps the ids distinct, and the children of a node are read off the parents that nodes name.
Scoring and placing leave both alone.

* **`Graph.Settled.filtered`**: what a filter leaves of a settled graph fits.
-/

namespace CodeAtlas

/-! ## Drafts -/

theorem nodeId_ne_empty (kind name : String) : nodeId kind name ≠ "" := by
  intro h
  have hlist : (nodeId kind name).toList = [] := by rw [h]; rfl
  simp [nodeId] at hlist

/-- The ids of the nodes are distinct and not empty, and those of the edges are distinct. -/
structure Draft.Sound (d : Draft) : Prop where
  ids : (d.nodes.map (·.id)).Nodup
  named : "" ∉ d.nodes.map (·.id)
  edgeIds : (d.edges.map (·.id)).Nodup

namespace Draft.Sound

variable {d : Draft}

theorem fresh : Sound {} := ⟨List.nodup_nil, List.not_mem_nil, List.nodup_nil⟩

theorem addNode (h : d.Sound) {n : Node} (hn : n.id ≠ "") : (d.addNode n).Sound where
  ids := by
    rw [ids_addNode]
    exact nodup_addOnce h.ids n.id
  named := by
    intro hmem
    obtain ⟨m, hm, hid⟩ := List.mem_map.mp hmem
    rcases mem_nodes_addNode hm with rfl | ⟨hm, -⟩
    · exact hn hid
    · exact h.named (List.mem_map.mpr ⟨m, hm, hid⟩)
  edgeIds := by
    rw [edges_addNode]
    exact h.edgeIds

theorem addEdge (h : d.Sound) (e : Edge) : (d.addEdge e).Sound where
  ids := by
    rw [nodes_addEdge]
    exact h.ids
  named := by
    rw [nodes_addEdge]
    exact h.named
  edgeIds := by
    rw [edgeIds_addEdge]
    exact nodup_addOnce h.edgeIds (keyOf e)

end Draft.Sound

def Node.bare (n : Node) : Node := { n with metrics := {}, position := none }

/-- The view shows neither scores nor places, but all that a filter looks at. -/
structure Node.Blurs (view : Node → Node) : Prop where
  bare : ∀ n, (view n).bare = n.bare
  children : ∀ n ids, view { n with children := ids } = { view n with children := ids }
  impact : ∀ n score, view (n.withImpact score) = view n
  place : ∀ n p, view { n with position := p } = view n

theorem Node.blurs_bare : Blurs bare :=
  ⟨fun _ => rfl, fun _ _ => rfl, fun _ _ => rfl, fun _ _ => rfl⟩

theorem Draft.bare_changeNode (d : Draft) (id : String) (change : Metrics → Metrics) :
    (d.changeNode id fun n => { n with metrics := change n.metrics }).nodes.map Node.bare =
      d.nodes.map Node.bare := by
  rw [changeNode, List.map_map]
  refine List.map_congr_left fun n _ => ?_
  by_cases h : n.id = id <;> simp [h, Node.bare]

theorem ids_eq_of_bare {nodes nodes' : List Node}
    (h : nodes'.map Node.bare = nodes.map Node.bare) :
    nodes'.map (·.id) = nodes.map (·.id) := by
  have hids := congrArg (List.map Node.id) h
  rwa [List.map_map, List.map_map] at hids

theorem Draft.Sound.measure {d : Draft} (h : d.Sound) (id : String) (change : Metrics → Metrics) :
    (d.changeNode id fun n => { n with metrics := change n.metrics }).Sound := by
  have hids := ids_eq_of_bare (d.bare_changeNode id change)
  exact ⟨hids ▸ h.ids, hids ▸ h.named, h.edgeIds⟩

namespace Assembly

variable {a a' : Assembly}

theorem Grows.sound (h : Grows a a') (ha : a.draft.Sound) : a'.draft.Sound := by
  cases h with
  | symbol path language e ids => exact ha.addNode (nodeId_ne_empty _ _)
  | edge e => exact ha.addEdge e
  | measure id change => exact ha.measure id change

/-- **Growth** keeps a draft sound. -/
theorem GrowsInto.sound (h : GrowsInto a a') (ha : a.draft.Sound) : a'.draft.Sound := by
  induction h with
  | refl => exact ha
  | tail _ hstep ih => exact hstep.sound ih

theorem sound_addFiles (f : GraphFilter) (ha : a.draft.Sound) : (a.addFiles f).draft.Sound := by
  unfold addFiles
  split
  · generalize a.outlines = outlines
    induction outlines generalizing a with
    | nil => exact ha
    | cons x outlines ih => exact ih (ha.addNode (nodeId_ne_empty _ _))
  · exact ha

end Assembly

/-! ## Children and parents -/

/-- The ids are distinct, and the children of a node are those that name it, in order. -/
structure Graph.Settled (g : Graph) : Prop where
  ids : g.ids.Nodup
  edgeIds : (g.edges.map (·.id)).Nodup
  children : ∀ n ∈ g.nodes, n.children = (g.nodes.filter (·.parentId == some n.id)).map (·.id)

theorem Node.parent?_beq (n : Node) {id : String} (hid : id ≠ "") :
    (n.parent? == some id) = (n.parentId == some id) := by
  rw [Bool.eq_iff_iff, beq_iff_eq, beq_iff_eq, parent?, Option.filter_eq_some_iff]
  constructor
  · exact fun h => h.1
  · exact fun h => ⟨h, by simpa using hid⟩

theorem Draft.Sound.settled {d : Draft} (h : d.Sound) (now : String) : (d.graph now).Settled where
  ids := by
    rw [ids_graph]
    exact h.ids
  edgeIds := h.edgeIds
  children := by
    intro n hn
    obtain ⟨m, hm, rfl⟩ := List.mem_map.mp hn
    have hid : m.id ≠ "" := fun he => h.named (List.mem_map.mpr ⟨m, hm, he⟩)
    simp only [graph, settle, childrenOf, List.filter_map, List.map_map, Function.comp_def,
      Node.parent?_beq _ hid]

namespace Node.Blurs

variable {view : Node → Node} {nodes nodes' : List Node} {f : GraphFilter}

theorem id_eq (hv : Blurs view) (n : Node) : (view n).id = n.id := by
  have hid := congrArg Node.id (hv.bare n)
  exact hid

theorem children_eq (hv : Blurs view) (n : Node) : (view n).children = n.children := by
  have hchildren := congrArg Node.children (hv.bare n)
  exact hchildren

theorem map_bare (hv : Blurs view) (h : nodes'.map view = nodes.map view) :
    nodes'.map Node.bare = nodes.map Node.bare := by
  have hbare := congrArg (List.map Node.bare) h
  simpa only [List.map_map, Function.comp_def, hv.bare] using hbare

theorem scored (hv : Blurs view) (g : Graph) : g.scored.nodes.map view = g.nodes.map view := by
  unfold Graph.scored
  split
  · rfl
  · rw [List.map_map]
    exact List.map_congr_left fun n _ => hv.impact n _

theorem settle (hv : Blurs view) {d d' : Draft} (h : d'.nodes.map view = d.nodes.map view) :
    d'.settle.nodes.map view = d.settle.nodes.map view := by
  have hfamily : ∀ (nodes : List Node) (id : String),
      childrenOf (nodes.map Node.bare) id = childrenOf nodes id := fun nodes id => by
    simp only [childrenOf, List.filter_map, List.map_map, Function.comp_def, Node.bare, parent?]
  have hchildren : ∀ id, childrenOf d'.nodes id = childrenOf d.nodes id := fun id => by
    rw [← hfamily, hv.map_bare h, hfamily]
  have hview : ∀ d₀ : Draft, d₀.settle.nodes.map view =
      (d₀.nodes.map view).map fun n => { n with children := childrenOf d₀.nodes n.id } := by
    intro d₀
    simp only [Draft.settle, List.map_map]
    refine List.map_congr_left fun n _ => ?_
    rw [Function.comp_apply, Function.comp_apply, hv.children]
    dsimp only
    rw [hv.id_eq]
  rw [hview, hview, h]
  simp only [hchildren]

theorem keepsNode (hv : Blurs view) (hf : f.threshold = none) (n : Node) :
    f.keepsNode (view n) = f.keepsNode n := by
  have hbare : ∀ m : Node, f.keepsNode m.bare = f.keepsNode m := fun m => by
    cases hx : f.exposure <;> simp [GraphFilter.keepsNode, GraphFilter.keepsScored,
      hf, hx, Exposure.keeps, Node.bare]
  rw [← hbare, hv.bare, hbare]

theorem filter_keepsNode (hv : Blurs view) (hf : f.threshold = none)
    (h : nodes'.map view = nodes.map view) :
    (nodes'.filter f.keepsNode).map view = (nodes.filter f.keepsNode).map view := by
  have hkeeps : f.keepsNode = f.keepsNode ∘ view := funext fun n => (hv.keepsNode hf n).symm
  rw [hkeeps, ← List.filter_map, ← List.filter_map, h]

theorem filtered (hv : Blurs view) {g g' : Graph} (hf : f.threshold = none)
    (h : g'.nodes.map view = g.nodes.map view) :
    (g'.filtered f).nodes.map view = (g.filtered f).nodes.map view := by
  have hkept := hv.filter_keepsNode hf h
  have hids := ids_eq_of_bare (hv.map_bare hkept)
  have hview : ∀ (nodes : List Node) (kept : List String),
      (nodes.map fun n => { n with children := n.children.filter kept.contains }).map view =
        (nodes.map view).map fun n => { n with children := n.children.filter kept.contains } := by
    intro nodes kept
    simp only [List.map_map]
    refine List.map_congr_left fun n _ => ?_
    rw [Function.comp_apply, Function.comp_apply, hv.children, hv.children_eq]
  dsimp only [Graph.filtered, Graph.keeping]
  rw [hview, hview, hkept, hids]

end Node.Blurs

namespace Graph

variable {g g' : Graph}

/-- The graphs differ in what is measured of the nodes and in their places alone. -/
def SameBare (g g' : Graph) : Prop :=
  g'.nodes.map Node.bare = g.nodes.map Node.bare ∧ g'.edges = g.edges

theorem SameBare.ids (h : g.SameBare g') : g'.ids = g.ids := ids_eq_of_bare h.1

theorem SameBare.exists_node (h : g.SameBare g') {n' : Node} (hn : n' ∈ g'.nodes) :
    ∃ n ∈ g.nodes, n.id = n'.id ∧ n.kind = n'.kind ∧ n.children = n'.children := by
  have hmem : n'.bare ∈ g.nodes.map Node.bare := h.1 ▸ List.mem_map_of_mem hn
  obtain ⟨n, hn, hbare⟩ := List.mem_map.mp hmem
  injection hbare with hid hkind _ _ _ _ _ _ _ _ hchildren
  exact ⟨n, hn, hid, hkind, hchildren⟩

theorem SameBare.settled (h : g.SameBare g') (hg : g.Settled) : g'.Settled where
  ids := by
    rw [h.ids]
    exact hg.ids
  edgeIds := by
    rw [h.2]
    exact hg.edgeIds
  children := by
    intro n' hn'
    obtain ⟨n, hn, hid, -, hchildren⟩ := h.exists_node hn'
    have hfamily : ∀ nodes : List Node, (nodes.filter (·.parentId == some n.id)).map (·.id) =
        ((nodes.map Node.bare).filter (·.parentId == some n.id)).map (·.id) := fun nodes => by
      simp only [List.filter_map, List.map_map, Function.comp_def, Node.bare]
    calc n'.children = n.children := hchildren.symm
      _ = (g.nodes.filter (·.parentId == some n.id)).map (·.id) := hg.children n hn
      _ = (g'.nodes.filter (·.parentId == some n.id)).map (·.id) := by
          rw [hfamily, hfamily g'.nodes, h.1]
      _ = (g'.nodes.filter (·.parentId == some n'.id)).map (·.id) := by rw [hid]

theorem edges_scored (g : Graph) : g.scored.edges = g.edges := by
  unfold scored
  split <;> rfl

theorem sameBare_scored (g : Graph) : g.SameBare g.scored :=
  ⟨Node.blurs_bare.scored g, g.edges_scored⟩

/-! ## Filters -/

/-- The graph is settled, of the wanted kinds and closed, and its totals are right. -/
structure Fits (g : Graph) (f : GraphFilter) : Prop extends g.Settled where
  ends : ∀ e ∈ g.edges, e.source ∈ g.ids ∧ e.target ∈ g.ids
  nodeKinds : ∀ n ∈ g.nodes, n.kind ∈ f.nodeKinds
  edgeKinds : ∀ e ∈ g.edges, e.kind ∈ f.edgeKinds
  totalNodes : g.metadata.totalNodes = g.nodes.length
  totalEdges : g.metadata.totalEdges = g.edges.length

theorem contains_id_filter {nodes : List Node} (hd : (nodes.map (·.id)).Nodup) (p : Node → Bool)
    {n : Node} (hn : n ∈ nodes) : ((nodes.filter p).map (·.id)).contains n.id = p n := by
  rw [Bool.eq_iff_iff, List.contains_iff_mem, List.mem_map]
  constructor
  · rintro ⟨m, hm, hid⟩
    obtain ⟨hmem, hp⟩ := List.mem_filter.mp hm
    exact List.inj_on_of_nodup_map hd hmem hn hid ▸ hp
  · exact fun hp => ⟨n, List.mem_filter.mpr ⟨hn, hp⟩, rfl⟩

theorem ids_filtered (g : Graph) (f : GraphFilter) :
    (g.filtered f).ids = (g.nodes.filter f.keepsNode).map (·.id) := g.ids_keeping _ _

theorem Settled.filtered (h : g.Settled) (f : GraphFilter) : (g.filtered f).Fits f where
  ids := by
    rw [ids_filtered]
    exact h.ids.sublist (List.filter_sublist.map _)
  edgeIds := h.edgeIds.sublist (List.filter_sublist.map _)
  children := by
    intro n' hn'
    obtain ⟨n, hn, rfl⟩ := List.mem_map.mp hn'
    have hmem : n ∈ g.nodes := (List.mem_filter.mp hn).1
    dsimp only [Graph.filtered, Graph.keeping]
    rw [h.children n hmem, List.filter_map, List.filter_map, List.map_map, List.filter_filter]
    simp only [List.filter_filter, Function.comp_def]
    congr 1
    refine List.filter_congr fun m hm => ?_
    rw [contains_id_filter h.ids f.keepsNode hm, Bool.and_comm]
  ends := by
    intro e he
    obtain ⟨-, hkeep⟩ := List.mem_filter.mp he
    rw [ids_filtered]
    simp only [Bool.and_eq_true, List.contains_iff_mem] at hkeep
    exact hkeep.1
  nodeKinds := by
    intro n' hn'
    obtain ⟨n, hn, rfl⟩ := List.mem_map.mp hn'
    have hkeep := (List.mem_filter.mp hn).2
    simp only [GraphFilter.keepsNode, GraphFilter.keepsScored, Bool.and_eq_true,
      List.contains_iff_mem] at hkeep
    exact hkeep.1.1
  edgeKinds := by
    intro e he
    have hkeep := (List.mem_filter.mp he).2
    simp only [Bool.and_eq_true, List.contains_iff_mem] at hkeep
    exact hkeep.2
  totalNodes := by simp [Graph.filtered, Graph.keeping]
  totalEdges := rfl

theorem SameBare.filtered (h : g.SameBare g') {f : GraphFilter} (hf : f.threshold = none) :
    (g.filtered f).SameBare (g'.filtered f) := by
  refine ⟨Node.blurs_bare.filtered hf h.1, ?_⟩
  have hids := ids_eq_of_bare (Node.blurs_bare.filter_keepsNode hf h.1)
  dsimp only [Graph.filtered, Graph.keeping]
  rw [hids, h.2]

theorem SameBare.edges_eq {d : Draft} {now : String} {f : GraphFilter}
    (h : ((d.graph now).filtered f).SameBare g) :
    g.edges = d.edges.filter fun e =>
      g.ids.contains e.source && g.ids.contains e.target && f.edgeKinds.contains e.kind := by
  rw [h.2, h.ids, ids_filtered]
  rfl

end Graph

end CodeAtlas
