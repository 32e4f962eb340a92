import CodeAtlas.Graph.Draft
import CodeAtlas.Proofs.Graph.Dependency
import Mathlib.Data.List.ProdSigma

/-!
# What a draft holds after a series of calls

Nodes and edges come in any order. A call fails only where the weight of an edge cannot be added to
the stored one; such a call changes nothing.

* **`Drafting.draft_keeps_calls`**: what a draft holds after any series of calls.
-/

namespace CodeAtlas

theorem find?_of_nodup {α : Type} (key : α → String) {xs : List α} (hd : (xs.map key).Nodup)
    {x : α} (hx : x ∈ xs) : xs.find? (key · == key x) = some x := by
  obtain ⟨y, hy⟩ : ∃ y, xs.find? (key · == key x) = some y :=
    Option.isSome_iff_exists.mp (List.find?_isSome.mpr ⟨x, hx, beq_self_eq_true (key x)⟩)
  have hkey : key y = key x := by simpa using List.find?_some hy
  rw [hy, List.inj_on_of_nodup_map hd (List.mem_of_find?_eq_some hy) hx hkey]

/-! ## Calls -/

/-- A call on a draft. -/
inductive DraftCall where
  | node (n : Node)
  | edge (e : Edge)

def DraftCall.node? : DraftCall → Option Node
  | .node n => some n
  | .edge _ => none

def DraftCall.edge? : DraftCall → Option Edge
  | .node _ => none
  | .edge e => some e

def Draft.call (d : Draft) : DraftCall → Except NumberFault Draft
  | .node n => .ok (d.addNode n)
  | .edge e => d.tryAddEdge e

/-- A draft that calls are made on. -/
structure Drafting where
  draft : Draft := {}
  done : List DraftCall := []

namespace Drafting

/-- A call made; one that fails changes nothing. -/
def take (s : Drafting) (c : DraftCall) : Drafting :=
  match s.draft.call c with
  | .ok d => ⟨d, s.done ++ [c]⟩
  | .error _ => s

def ofCalls (calls : List DraftCall) : Drafting := calls.foldl take {}

def nodes (s : Drafting) : List Node := s.done.filterMap DraftCall.node?

def edges (s : Drafting) : List Edge := s.done.filterMap DraftCall.edge?

end Drafting

/-! ## Weights -/

def Computed.total : List Computed → Computed
  | [] => .whole 0
  | x :: xs => xs.foldl (· + ·) x

theorem Computed.total_append {xs : List Computed} (h : xs ≠ []) (ys : List Computed) :
    total (xs ++ ys) = ys.foldl (· + ·) (total xs) := by
  cases xs with
  | nil => exact absurd rfl h
  | cons x xs => simp only [total, List.cons_append, List.foldl_append]

namespace Draft

theorem computed_weightSum {stored added weight : Amount}
    (h : weightSum stored added = .ok weight) :
    weight.computed = stored.computed + added.computed := by
  unfold weightSum at h
  cases hsum : stored.computed + added.computed <;> rw [hsum] at h <;> cases h <;> rfl

theorem weightSum_real (x y : Float) : weightSum (.real x) (.real y) = .ok (.real (x + y)) := rfl

end Draft

/-- The edge is the first of those listed, with all weights and counts summed up. -/
structure Edge.Gathers (parts : List Edge) (e : Edge) : Prop where
  first : ∃ first, parts.head? = some first ∧
    e = { first with id := e.id, weight := e.weight, count := e.count }
  weight : e.weight.computed = Computed.total (parts.map fun p => p.weight.computed)
  count : e.count = (parts.map (·.count)).foldl (· + ·) 0

namespace Edge.Gathers

variable {parts : List Edge} {e : Edge}

theorem ne_nil (h : e.Gathers parts) : parts ≠ [] := by
  obtain ⟨first, hfirst, -⟩ := h.first
  rintro rfl
  cases hfirst

theorem single (p : Edge) (key : String) : Gathers [p] { p with id := key } where
  first := ⟨p, rfl, rfl⟩
  weight := rfl
  count := by simp

theorem merged (h : e.Gathers parts) {p : Edge} {weight : Amount}
    (hw : Draft.weightSum e.weight p.weight = .ok weight) :
    (Draft.merged e p).Gathers (parts ++ [p]) := by
  have hm : Draft.merged e p = { e with weight := weight, count := e.count + p.count } := by
    rw [Draft.merged, hw]
  obtain ⟨first, hfirst, he⟩ := h.first
  rw [hm]
  refine ⟨⟨first, ?_, ?_⟩, ?_, ?_⟩
  · rw [List.head?_append, hfirst]
    rfl
  · rw [he]
  · have hne : parts.map (fun q => q.weight.computed) ≠ [] := by simpa using h.ne_nil
    rw [List.map_append, List.map_singleton, Computed.total_append hne, ← h.weight]
    exact Draft.computed_weightSum hw
  · rw [List.map_append, List.map_singleton, List.foldl_append, ← h.count]
    rfl

end Edge.Gathers

namespace Draft

variable {d : Draft} {n : Node} {e : Edge}

/-! ## One node more -/

variable {edges : List Edge} {id : String} {x : Float} {a b : String}

theorem has_iff : d.has id = true ↔ id ∈ d.nodes.map (·.id) := by
  simp [has, List.mem_map]

theorem addNode_of_mem (h : n.id ∈ d.nodes.map (·.id)) :
    d.addNode n = { d with nodes := d.nodes.map fun m => if m.id == n.id then n else m } := by
  rw [addNode, if_pos (has_iff.mpr h)]

theorem addNode_of_notMem (h : n.id ∉ d.nodes.map (·.id)) :
    d.addNode n = { d with nodes := d.nodes ++ [n] } := by
  rw [addNode, if_neg fun hn => h (has_iff.mp hn)]

theorem ids_addNode (d : Draft) (n : Node) :
    (d.addNode n).nodes.map (·.id) = addOnce (d.nodes.map (·.id)) n.id := by
  by_cases h : n.id ∈ d.nodes.map (·.id)
  · rw [addNode_of_mem h, addOnce, if_pos h, List.map_map]
    refine List.map_congr_left fun m _ => ?_
    by_cases hm : m.id = n.id <;> simp [hm]
  · rw [addNode_of_notMem h, addOnce, if_neg h, List.map_append, List.map_singleton]

theorem has_addNode (d : Draft) (n : Node) (id : String) :
    (d.addNode n).has id = true ↔ d.has id = true ∨ id = n.id := by
  rw [has_iff, has_iff, ids_addNode, mem_addOnce]

theorem mem_nodes_addNode {m : Node} (h : m ∈ (d.addNode n).nodes) :
    m = n ∨ m ∈ d.nodes ∧ m.id ≠ n.id := by
  by_cases hn : n.id ∈ d.nodes.map (·.id)
  · rw [addNode_of_mem hn] at h
    obtain ⟨k, hk, rfl⟩ := List.mem_map.mp h
    by_cases hid : k.id = n.id
    · exact Or.inl (by simp [hid])
    · exact Or.inr ⟨by simpa [hid] using hk, by simp [hid]⟩
  · rw [addNode_of_notMem hn] at h
    rcases List.mem_append.mp h with hm | hm
    · exact Or.inr ⟨hm, fun e => hn (e ▸ List.mem_map_of_mem hm)⟩
    · exact Or.inl (List.mem_singleton.mp hm)

@[simp]
theorem edges_addNode (d : Draft) (n : Node) : (d.addNode n).edges = d.edges := by
  unfold addNode; split <;> rfl

@[simp]
theorem neighbors_addNode (d : Draft) (n : Node) : (d.addNode n).neighbors = d.neighbors := by
  unfold addNode; split <;> rfl

@[simp]
theorem incoming_addNode (d : Draft) (n : Node) : (d.addNode n).incoming = d.incoming := by
  unfold addNode; split <;> rfl

@[simp]
theorem contents_addNode (d : Draft) (n : Node) : (d.addNode n).contents = d.contents := by
  unfold addNode; split <;> rfl

/-! ## One edge more -/

theorem merged_ends (e p : Edge) :
    (merged e p).id = e.id ∧ (merged e p).source = e.source ∧ (merged e p).target = e.target ∧
      (merged e p).kind = e.kind := by
  unfold merged; split <;> exact ⟨rfl, rfl, rfl, rfl⟩

theorem any_key_iff : (d.edges.any (·.id == keyOf e)) = true ↔ keyOf e ∈ d.edges.map (·.id) := by
  simp [List.mem_map]

theorem addEdge_of_mem (h : keyOf e ∈ d.edges.map (·.id)) :
    d.addEdge e =
      { d with edges := d.edges.map fun f => if f.id == keyOf e then merged f e else f } := by
  rw [addEdge]
  exact if_pos (any_key_iff.mpr h)

theorem addEdge_of_notMem (h : keyOf e ∉ d.edges.map (·.id)) :
    d.addEdge e = { d.link e with edges := d.edges ++ [{ e with id := keyOf e }] } := by
  rw [addEdge]
  exact if_neg fun he => h (any_key_iff.mp he)

@[simp]
theorem nodes_addEdge (d : Draft) (e : Edge) : (d.addEdge e).nodes = d.nodes := by
  by_cases h : keyOf e ∈ d.edges.map (·.id)
  · rw [addEdge_of_mem h]
  · rw [addEdge_of_notMem h, link]
    split <;> rfl

theorem edgeIds_addEdge (d : Draft) (e : Edge) :
    (d.addEdge e).edges.map (·.id) = addOnce (d.edges.map (·.id)) (keyOf e) := by
  by_cases h : keyOf e ∈ d.edges.map (·.id)
  · rw [addEdge_of_mem h, addOnce, if_pos h, List.map_map]
    refine List.map_congr_left fun f _ => ?_
    by_cases hf : f.id = keyOf e <;> simp [hf, merged_ends]
  · rw [addEdge_of_notMem h, addOnce, if_neg h, List.map_append, List.map_singleton]

theorem tryAddEdge_eq_ok {d' : Draft} :
    d.tryAddEdge e = .ok d' ↔ d.weightFault? e = none ∧ d' = d.addEdge e := by
  unfold tryAddEdge
  cases d.weightFault? e with
  | some fault => simp
  | none => simp [eq_comm]

theorem exists_weightSum (hd : (d.edges.map (·.id)).Nodup) (h : d.weightFault? e = none) {f : Edge}
    (hf : f ∈ d.edges) (hkey : f.id = keyOf e) :
    ∃ weight, weightSum f.weight e.weight = .ok weight := by
  -- the ids are distinct, so the stored edge that is looked at is `f`
  have hfind : d.edges.find? (·.id == keyOf e) = some f := hkey ▸ find?_of_nodup Edge.id hd hf
  rw [weightFault?, hfind, Option.bind_some] at h
  split at h
  · exact ⟨_, ‹_›⟩
  · cases h

def RealWeights (d : Draft) : Prop := ∀ e ∈ d.edges, ∃ x, e.weight = .real x

theorem RealWeights.weightFault? (h : d.RealWeights) (hx : e.weight = .real x) :
    d.weightFault? e = none := by
  unfold Draft.weightFault?
  cases hf : d.edges.find? (·.id == keyOf e) with
  | none => rfl
  | some f =>
    obtain ⟨y, hy⟩ := h f (List.mem_of_find?_eq_some hf)
    rw [Option.bind_some, hy, hx, weightSum_real]

theorem RealWeights.tryAddEdge (h : d.RealWeights) (hx : e.weight = .real x) :
    d.tryAddEdge e = .ok (d.addEdge e) := by
  rw [Draft.tryAddEdge, h.weightFault? hx]

theorem RealWeights.addEdge (h : d.RealWeights) (hx : e.weight = .real x) :
    (d.addEdge e).RealWeights := by
  intro f hf
  by_cases hkey : keyOf e ∈ d.edges.map (·.id)
  · rw [addEdge_of_mem hkey] at hf
    obtain ⟨g, hg, rfl⟩ := List.mem_map.mp hf
    obtain ⟨y, hy⟩ := h g hg
    by_cases hid : g.id = keyOf e
    · exact ⟨y + x, by simp [hid, merged, hy, hx, weightSum_real]⟩
    · exact ⟨y, by simpa [hid] using hy⟩
  · rw [addEdge_of_notMem hkey] at hf
    rcases List.mem_append.mp hf with hf | hf
    · exact h f hf
    · exact ⟨x, by rw [List.mem_singleton.mp hf, hx]⟩

/-- The edges are one for each key, in the order of the first, and stand for all of it. -/
structure Collects (d : Draft) (added : List Edge) : Prop where
  edgeIds : d.edges.map (·.id) = (added.map keyOf).eraseDups
  gathers : ∀ e ∈ d.edges, e.Gathers (added.filter (keyOf · == e.id))

namespace Collects

variable {d' : Draft} {added : List Edge}

theorem nodup_edgeIds (h : d.Collects added) : (d.edges.map (·.id)).Nodup :=
  h.edgeIds ▸ nodup_eraseDups _

theorem of_edges_eq (h : d.Collects added) (hedges : d'.edges = d.edges) : d'.Collects added :=
  ⟨hedges ▸ h.edgeIds, hedges ▸ h.gathers⟩

theorem addEdge (h : d.Collects added) (hfault : d.weightFault? e = none) :
    (d.addEdge e).Collects (added ++ [e]) := by
  refine ⟨?_, fun f hf => ?_⟩
  · rw [edgeIds_addEdge, h.edgeIds, List.map_append, List.map_singleton, eraseDups_concat]
  · rw [List.filter_append]
    by_cases hkey : keyOf e ∈ d.edges.map (·.id)
    · -- the key is known: what is stored under it takes the edge in, the rest stays
      rw [addEdge_of_mem hkey] at hf
      obtain ⟨f, hstored, rfl⟩ := List.mem_map.mp hf
      by_cases hid : f.id = keyOf e
      · obtain ⟨weight, hw⟩ := exists_weightSum h.nodup_edgeIds hfault hstored hid
        have hg := (h.gathers f hstored).merged hw
        simpa [hid, merged_ends] using hg
      · have hne : keyOf e ≠ f.id := Ne.symm hid
        simpa [hid, hne] using h.gathers f hstored
    · -- the key is new: no edge was added under it before
      rw [addEdge_of_notMem hkey] at hf
      rcases List.mem_append.mp hf with hf | hf
      · have hne : keyOf e ≠ f.id := fun he => hkey (he ▸ List.mem_map_of_mem hf)
        simpa [hne] using h.gathers f hf
      · obtain rfl := List.mem_singleton.mp hf
        have hnone : added.filter (keyOf · == keyOf e) = [] := by
          refine List.filter_eq_nil_iff.mpr fun p hp hpe => hkey ?_
          rw [h.edgeIds, List.mem_eraseDups, ← beq_iff_eq.mp hpe]
          exact List.mem_map_of_mem hp
        simpa [hnone] using Edge.Gathers.single e (keyOf e)

end Collects

/-! ## The indices -/

def dependencyPairs (edges : List Edge) : List (String × String) :=
  (edges.filter (·.kind != containment)).map fun e => (e.source, e.target)

def containmentPairs (edges : List Edge) : List (String × String) :=
  (edges.filter (·.kind == containment)).map fun e => (e.source, e.target)

theorem mem_dependencyPairs :
    (a, b) ∈ dependencyPairs edges ↔
      ∃ e ∈ edges, e.kind ≠ containment ∧ e.source = a ∧ e.target = b := by
  simp only [dependencyPairs, List.mem_map, List.mem_filter, bne_iff_ne, Prod.mk.injEq, and_assoc]

theorem mem_containmentPairs :
    (a, b) ∈ containmentPairs edges ↔
      ∃ e ∈ edges, e.kind = containment ∧ e.source = a ∧ e.target = b := by
  simp only [containmentPairs, List.mem_map, List.mem_filter, beq_iff_eq, Prod.mk.injEq, and_assoc]

/-- The indices of the draft list the ends of its edges, in their order. -/
structure Linked (d : Draft) : Prop where
  ahead : ∀ a, d.neighbors a = targetsIn (dependencyPairs d.edges) a
  behind : ∀ a, d.incoming a = targetsIn ((dependencyPairs d.edges).map Prod.swap) a
  inside : ∀ a, d.contents a = targetsIn (containmentPairs d.edges) a

theorem linked_fresh : Linked {} := by
  constructor <;> intro a <;> simp [neighbors, incoming, contents, Links.targets, Links.empty,
    dependencyPairs, containmentPairs, targetsIn]

theorem Linked.addNode (h : d.Linked) (n : Node) : (d.addNode n).Linked where
  ahead := by simpa using h.ahead
  behind := by simpa using h.behind
  inside := by simpa using h.inside

theorem filterMap_ends_merge (edges : List Edge) (e : Edge) (p : Edge → Bool)
    (hp : ∀ f, p (merged f e) = p f) :
    ((edges.map fun f => if f.id == keyOf e then merged f e else f).filter p).map
        (fun f => (f.source, f.target)) =
      (edges.filter p).map fun f => (f.source, f.target) := by
  induction edges with
  | nil => rfl
  | cons f edges ih =>
    have hends : ∀ g : Edge, g = f ∨ g = merged f e → p g = p f ∧
        (g.source, g.target) = (f.source, f.target) := by
      rintro g (rfl | rfl)
      · exact ⟨rfl, rfl⟩
      · exact ⟨hp f, by rw [(merged_ends f e).2.1, (merged_ends f e).2.2.1]⟩
    obtain ⟨hpg, hg⟩ := hends (if f.id == keyOf e then merged f e else f) (by split <;> simp)
    rw [List.map_cons, List.filter_cons, List.filter_cons, hpg]
    split
    · rw [List.map_cons, List.map_cons, hg, ih]
    · exact ih

theorem Linked.addEdge (h : d.Linked) (e : Edge) : (d.addEdge e).Linked := by
  by_cases hkey : keyOf e ∈ d.edges.map (·.id)
  · have hdep : dependencyPairs (d.addEdge e).edges = dependencyPairs d.edges := by
      rw [addEdge_of_mem hkey]
      exact filterMap_ends_merge _ _ _ fun f => by rw [(merged_ends f e).2.2.2]
    have hcon : containmentPairs (d.addEdge e).edges = containmentPairs d.edges := by
      rw [addEdge_of_mem hkey]
      exact filterMap_ends_merge _ _ _ fun f => by rw [(merged_ends f e).2.2.2]
    refine ⟨fun a => ?_, fun a => ?_, fun a => ?_⟩
    · rw [hdep, ← h.ahead, addEdge_of_mem hkey]; rfl
    · rw [hdep, ← h.behind, addEdge_of_mem hkey]; rfl
    · rw [hcon, ← h.inside, addEdge_of_mem hkey]; rfl
  · rw [addEdge_of_notMem hkey]
    by_cases hc : e.kind = containment
    · have hdep : dependencyPairs (d.edges ++ [{ e with id := keyOf e }]) =
          dependencyPairs d.edges := by simp [dependencyPairs, List.filter_append, hc]
      have hcon : containmentPairs (d.edges ++ [{ e with id := keyOf e }]) =
          containmentPairs d.edges ++ [(e.source, e.target)] := by
        simp [containmentPairs, List.filter_append, hc]
      refine ⟨fun a => ?_, fun a => ?_, fun a => ?_⟩
      · rw [hdep, ← h.ahead]; simp [neighbors, link, hc]
      · rw [hdep, ← h.behind]; simp [incoming, link, hc]
      · rw [hcon, targetsIn_concat, ← h.inside]
        simp [contents, link, hc, Links.targets_add]
    · have hdep : dependencyPairs (d.edges ++ [{ e with id := keyOf e }]) =
          dependencyPairs d.edges ++ [(e.source, e.target)] := by
        simp [dependencyPairs, List.filter_append, hc]
      have hcon : containmentPairs (d.edges ++ [{ e with id := keyOf e }]) =
          containmentPairs d.edges := by simp [containmentPairs, List.filter_append, hc]
      refine ⟨fun a => ?_, fun a => ?_, fun a => ?_⟩
      · rw [hdep, targetsIn_concat, ← h.ahead]
        simp [neighbors, link, hc, Links.targets_add]
      · rw [hdep, List.map_append, List.map_singleton, targetsIn_concat, ← h.behind]
        simp [incoming, link, hc, Links.targets_add]
      · rw [hcon, ← h.inside]; simp [contents, link, hc]

/-! ## The finished graph -/

theorem filter_addOnce (p : String → Bool) (xs : List String) (x : String) :
    (addOnce xs x).filter p = if p x then addOnce (xs.filter p) x else xs.filter p := by
  unfold addOnce
  by_cases hp : p x = true
  · by_cases hx : x ∈ xs <;> simp [hp, hx]
  · by_cases hx : x ∈ xs <;> simp [hp, hx]

theorem filter_eraseDups (p : String → Bool) (xs : List String) :
    xs.eraseDups.filter p = (xs.filter p).eraseDups := by
  induction xs using List.reverseRecOn with
  | nil => rfl
  | append_singleton xs x ih =>
    rw [eraseDups_concat, filter_addOnce, ih, List.filter_append]
    by_cases hp : p x = true
    · simp [hp, eraseDups_concat]
    · simp [hp]

theorem targetsIn_filter (pairs : List (String × String)) (known : String → Bool) {a : String}
    (ha : known a = true) :
    targetsIn (pairs.filter fun p => known p.1 && known p.2) a =
      (targetsIn pairs a).filter known := by
  have hcond : ∀ p : String × String, (p.1 == a && (known p.1 && known p.2)) =
      (known p.2 && p.1 == a) := by
    intro p
    by_cases hp : p.1 = a
    · simp [hp, ha]
    · simp [beq_false_of_ne hp]
  simp only [targetsIn, filter_eraseDups, List.filter_map, List.filter_filter, Function.comp_def,
    hcond]

theorem ids_graph (d : Draft) (now : String) : (d.graph now).ids = d.nodes.map (·.id) := by
  simp [Graph.ids, graph, settle, Function.comp_def]

/-- The graph looks up what the draft looks up, less what is no node. -/
theorem Linked.ahead_graph (h : d.Linked) (now : String) (hid : d.has id = true) :
    (d.graph now).ahead.targets id = (d.neighbors id).filter d.has := by
  have hpairs : (d.graph now).dependencies =
      (dependencyPairs d.edges).filter fun p => d.has p.1 && d.has p.2 := by
    have hhas : ∀ x, (d.graph now).ids.contains x = d.has x := fun x => by
      rw [Bool.eq_iff_iff, List.contains_iff_mem, ids_graph, has_iff]
    simp only [Graph.dependencies, dependencyPairs, Graph.holds, hhas, List.filter_map,
      List.filter_filter, Function.comp_def]
    simp only [graph, Bool.and_comm]
  rw [Graph.ahead, Links.targets_ofPairs, hpairs, targetsIn_filter _ _ hid, h.ahead]

end Draft

/-! ## Series of calls -/

namespace Drafting

/-- What a series of calls keeps. -/
structure Kept (s : Drafting) : Prop where
  edgeIds : s.draft.edges.map (·.id) = (s.edges.map Draft.keyOf).eraseDups
  gathers : ∀ e ∈ s.draft.edges, e.Gathers (s.edges.filter (Draft.keyOf · == e.id))
  linked : s.draft.Linked
  nodeIds : s.draft.nodes.map (·.id) = (s.nodes.map (·.id)).eraseDups
  latest : ∀ n ∈ s.draft.nodes, (s.nodes.filter (·.id == n.id)).getLast? = some n

variable {s : Drafting}

theorem kept_fresh : Kept {} := by
  refine ⟨rfl, ?_, Draft.linked_fresh, rfl, ?_⟩ <;> simp

theorem Kept.collects (h : s.Kept) : s.draft.Collects s.edges := ⟨h.edgeIds, h.gathers⟩

theorem Kept.addNode (h : s.Kept) (n : Node) :
    Kept ⟨s.draft.addNode n, s.done ++ [.node n]⟩ := by
  have hnodes : (⟨s.draft.addNode n, s.done ++ [.node n]⟩ : Drafting).nodes = s.nodes ++ [n] := by
    simp [nodes, DraftCall.node?]
  have hedges : (⟨s.draft.addNode n, s.done ++ [.node n]⟩ : Drafting).edges = s.edges := by
    simp [edges, DraftCall.edge?]
  refine ⟨?_, ?_, h.linked.addNode n, ?_, fun m hm => ?_⟩
  · rw [hedges, Draft.edges_addNode, h.edgeIds]
  · rw [hedges, Draft.edges_addNode]
    exact h.gathers
  · rw [hnodes, Draft.ids_addNode, h.nodeIds, List.map_append, List.map_singleton, eraseDups_concat]
  · rw [hnodes, List.filter_append]
    rcases Draft.mem_nodes_addNode hm with rfl | ⟨hm, hne⟩
    · simp
    · rw [← h.latest m hm]
      simp [Ne.symm hne]

theorem Kept.addEdge (h : s.Kept) {e : Edge} {d : Draft} (hd : s.draft.tryAddEdge e = .ok d) :
    Kept ⟨d, s.done ++ [.edge e]⟩ := by
  obtain ⟨hfault, rfl⟩ := Draft.tryAddEdge_eq_ok.mp hd
  have hnodes : (⟨s.draft.addEdge e, s.done ++ [.edge e]⟩ : Drafting).nodes = s.nodes := by
    simp [nodes, DraftCall.node?]
  have hedges : (⟨s.draft.addEdge e, s.done ++ [.edge e]⟩ : Drafting).edges = s.edges ++ [e] := by
    simp [edges, DraftCall.edge?]
  obtain ⟨hids, hgathers⟩ := h.collects.addEdge hfault
  refine ⟨hedges ▸ hids, hedges ▸ hgathers, h.linked.addEdge e, ?_, ?_⟩
  · rw [hnodes, Draft.nodes_addEdge, h.nodeIds]
  · rw [hnodes, Draft.nodes_addEdge]
    exact h.latest

theorem Kept.take (h : s.Kept) (c : DraftCall) : (s.take c).Kept := by
  unfold Drafting.take
  split
  · rename_i d hd
    cases c with
    | node n =>
      obtain rfl := Except.ok.inj hd
      exact h.addNode n
    | edge e => exact h.addEdge hd
  · exact h

/-- **Every series of calls** keeps what one call keeps. -/
theorem kept_ofCalls (calls : List DraftCall) : (ofCalls calls).Kept := by
  unfold ofCalls
  induction calls using List.reverseRecOn with
  | nil => exact kept_fresh
  | append_singleton calls c ih =>
    rw [List.foldl_append]
    exact ih.take c

theorem take_of_ok {c : DraftCall} {d : Draft} (h : s.draft.call c = .ok d) :
    s.take c = ⟨d, s.done ++ [c]⟩ := by
  rw [take, h]

theorem done_ofCalls {calls : List DraftCall}
    (h : ∀ e, DraftCall.edge e ∈ calls → ∃ x, e.weight = .real x) :
    (ofCalls calls).done = calls := by
  suffices hall : (ofCalls calls).done = calls ∧ (ofCalls calls).draft.RealWeights from hall.1
  unfold ofCalls
  induction calls using List.reverseRecOn with
  | nil => exact ⟨rfl, fun e he => absurd he List.not_mem_nil⟩
  | append_singleton calls c ih =>
    obtain ⟨hdone, hreal⟩ := ih fun e he => h e (List.mem_append_left _ he)
    rw [List.foldl_append, List.foldl_cons, List.foldl_nil]
    cases c with
    | node n =>
      rw [take_of_ok (c := .node n) rfl, hdone]
      exact ⟨rfl, fun e he => hreal e (Draft.edges_addNode _ n ▸ he)⟩
    | edge e =>
      obtain ⟨x, hx⟩ := h e (List.mem_append_right _ (List.mem_singleton_self _))
      rw [take_of_ok (c := .edge e) (hreal.tryAddEdge hx), hdone]
      exact ⟨rfl, hreal.addEdge hx⟩

/-- **What a draft holds** after any series of calls. -/
theorem draft_keeps_calls (calls : List DraftCall) (now : String) :
    let s := ofCalls calls
    -- one edge for each key, in the order of the first edges, standing for all of the key
    s.draft.edges.map (·.id) = (s.edges.map Draft.keyOf).eraseDups ∧
    (∀ e ∈ s.draft.edges, e.Gathers (s.edges.filter (Draft.keyOf · == e.id))) ∧
    -- the ends of the edges, looked up
    (∀ a b,
      (b ∈ s.draft.neighbors a ↔
        ∃ e ∈ s.draft.edges, e.kind ≠ containment ∧ e.source = a ∧ e.target = b) ∧
      (a ∈ s.draft.incoming b ↔ b ∈ s.draft.neighbors a) ∧
      (b ∈ s.draft.contents a ↔
        ∃ e ∈ s.draft.edges, e.kind = containment ∧ e.source = a ∧ e.target = b)) ∧
    -- one node for each id, the last one added
    s.draft.nodes.map (·.id) = (s.nodes.map (·.id)).eraseDups ∧
    (∀ n ∈ s.draft.nodes, (s.nodes.filter (·.id == n.id)).getLast? = some n) ∧
    -- the index of the finished graph
    (∀ n ∈ s.draft.nodes, (s.draft.graph now).ahead.targets n.id =
      (s.draft.neighbors n.id).filter s.draft.has) ∧
    -- only a weight that cannot be added makes a call fail
    ((∀ e, DraftCall.edge e ∈ calls → ∃ x, e.weight = .real x) → s.done = calls) := by
  intro s
  have h : s.Kept := kept_ofCalls calls
  refine ⟨h.edgeIds, h.gathers, fun a b => ⟨?_, ?_, ?_⟩, h.nodeIds, h.latest, fun n hn => ?_,
    done_ofCalls⟩
  · rw [h.linked.ahead, mem_targetsIn, Draft.mem_dependencyPairs]
  · rw [h.linked.ahead, h.linked.behind, mem_targetsIn, mem_targetsIn]
    exact List.mem_map_swap a b _
  · rw [h.linked.inside, mem_targetsIn, Draft.mem_containmentPairs]
  · exact h.linked.ahead_graph now (Draft.has_iff.mpr (List.mem_map_of_mem hn))

end Drafting

end CodeAtlas
