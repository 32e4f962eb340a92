import CodeAtlas.Proofs.Graph.BreadthFirst
import Mathlib.Data.List.Chain

/-!
# Breadth-first search finds shortest paths

In the queue of a search all nodes of a path but its end have been visited before, so a fresh node
is not on the way to itself. That the path is a shortest one follows from its length.

* **`Graph.isShortestPath_of_mem`**, **`Graph.mem_keys_pathsFrom`**: the paths found in a graph.
-/

namespace CodeAtlas

open Relation

/-- A path that comes to no node twice and is no longer than any other. -/
structure IsShortestPath (r : String → String → Prop) (s t : String) (path : List String) :
    Prop where
  chain : path.IsChain r
  head : path.head? = some s
  last : path.getLast? = some t
  nodup : path.Nodup
  least : ∀ other : List String, other.IsChain r → other.head? = some s →
    other.getLast? = some t → path.length ≤ other.length

/-! ## Paths and walks -/

section Walks

variable {r : String → String → Prop} {a b : String} {nodes : List String} {n : ℕ}

theorem steps_of_isChain (h : nodes.IsChain r) (hhead : nodes.head? = some a)
    (hlast : nodes.getLast? = some b) : Steps r (nodes.length - 1) a b := by
  induction nodes generalizing a with
  | nil => cases hhead
  | cons x nodes ih =>
    obtain rfl : x = a := Option.some.inj hhead
    cases nodes with
    | nil =>
      obtain rfl : x = b := Option.some.inj hlast
      exact .stay x
    | cons y nodes =>
      obtain ⟨hxy, hchain⟩ := List.isChain_cons_cons.mp h
      exact .step hxy (ih hchain rfl hlast)

theorem IsShortestPath.of_isDistance (hchain : nodes.IsChain r) (hhead : nodes.head? = some a)
    (hlast : nodes.getLast? = some b) (hnodup : nodes.Nodup)
    (h : IsDistance r a b (nodes.length - 1)) : IsShortestPath r a b nodes where
  chain := hchain
  head := hhead
  last := hlast
  nodup := hnodup
  least other hother hhead' hlast' := by
    have hle := h.2 (steps_of_isChain hother hhead' hlast')
    have hpos : 0 < other.length := List.length_pos_of_mem (List.mem_of_mem_head? hhead')
    omega

theorem Steps.exists_isChain (h : Steps r n a b) :
    ∃ nodes : List String, nodes.IsChain r ∧ nodes.head? = some a ∧ nodes.getLast? = some b ∧
      nodes.length = n + 1 := by
  induction h with
  | stay a => exact ⟨[a], .singleton a, rfl, rfl, rfl⟩
  | @step n a b c hab _ ih =>
    obtain ⟨nodes, hchain, hhead, hlast, hlen⟩ := ih
    refine ⟨a :: nodes, List.isChain_cons.mpr ⟨fun y hy => ?_, hchain⟩, rfl, ?_, by simp [hlen]⟩
    · obtain rfl : b = y := Option.some.inj (hhead.symm.trans hy)
      exact hab
    · rw [List.getLast?_cons, hlast, Option.getD_some]

theorem IsShortestPath.isDistance (h : IsShortestPath r a b nodes) :
    IsDistance r a b (nodes.length - 1) := by
  refine ⟨steps_of_isChain h.chain h.head h.last, fun k hk => ?_⟩
  obtain ⟨other, hchain, hhead, hlast, hlen⟩ := hk.exists_isChain
  have hle := h.least other hchain hhead hlast
  omega

end Walks

/-! ## Queued paths -/

/-- A path from the start, listed from its end, with no fresh node before its end. -/
structure Trail (next : String → List String) (start : String) (fresh : List String)
    (node : String) (path : List String) : Prop where
  chain : path.IsChain fun b a => b ∈ next a
  first : path.getLast? = some start
  shape : ∃ before, path = node :: before ∧ before.Nodup ∧ ∀ x ∈ before, x ∉ fresh

section Trails

variable {next : String → List String} {bound : Option ℤ} {start node n : String}
  {fresh fresh' path : List String} {queue : List (String × List String)}

theorem Trail.mono (h : Trail next start fresh node path) (hsub : fresh' ⊆ fresh) :
    Trail next start fresh' node path := by
  obtain ⟨before, hpath, hnodup, hold⟩ := h.shape
  exact ⟨h.chain, h.first, before, hpath, hnodup, fun x hx hfresh => hold x hx (hsub hfresh)⟩

theorem Trail.nodup (h : Trail next start fresh node path) (hnode : node ∈ fresh) :
    path.Nodup := by
  obtain ⟨before, rfl, hnodup, hold⟩ := h.shape
  exact List.nodup_cons.mpr ⟨fun hmem => hold node hmem hnode, hnodup⟩

/-- **A path that joins the queue**, when the node before its end is visited. -/
theorem Trail.visit (h : Trail next start fresh node path) (hnode : node ∈ fresh)
    (hn : n ∈ next node) : Trail next start (without fresh node) n (n :: path) where
  chain := by
    obtain ⟨before, rfl, -, -⟩ := h.shape
    exact List.isChain_cons_cons.mpr ⟨hn, h.chain⟩
  first := by rw [List.getLast?_cons, h.first, Option.getD_some]
  shape := by
    refine ⟨path, rfl, h.nodup hnode, fun x hx hfresh => ?_⟩
    obtain ⟨before, rfl, -, hold⟩ := h.shape
    obtain ⟨hfresh, hne⟩ := mem_without.mp hfresh
    rcases List.mem_cons.mp hx with rfl | hx
    · exact hne rfl
    · exact hold x hx hfresh

theorem Trail.singleton (next : String → List String) (start : String) (fresh : List String) :
    Trail next start fresh start [start] :=
  ⟨.singleton start, rfl, [], rfl, List.nodup_nil, List.forall_mem_nil _⟩

/-- A path found leads from the start to its node and comes to no node twice. -/
theorem trail_of_mem_exploreFrom (hqueue : ∀ e ∈ queue, Trail next start fresh e.1 e.2)
    (h : (n, path) ∈ exploreFrom next bound fresh queue) :
    path.IsChain (fun b a => b ∈ next a) ∧ path.getLast? = some start ∧ path.head? = some n ∧
      path.Nodup := by
  induction fresh, queue using exploreFrom.induct next bound with
  | case1 fresh => simp [exploreFrom] at h
  | case2 fresh node p rest hv others ih =>
    obtain ⟨htrail, hrest⟩ := List.forall_mem_cons.mp hqueue
    rw [exploreFrom_visit hv, List.mem_cons] at h
    rcases h with e | h
    · obtain ⟨rfl, rfl⟩ := Prod.mk.inj e
      obtain ⟨before, hpath, -, -⟩ := htrail.shape
      exact ⟨htrail.chain, htrail.first, congrArg List.head? hpath, htrail.nodup hv.1⟩
    · refine ih (fun e he => ?_) h
      rcases List.mem_append.mp he with he | he
      · exact (hrest e he).mono fun x hx => (mem_without.mp hx).1
      · obtain ⟨b, hb, rfl⟩ := List.mem_map.mp he
        exact htrail.visit hv.1 (List.mem_filter.mp hb).1
  | case3 fresh node p rest hs ih =>
    rw [exploreFrom_skip hs] at h
    exact ih (List.forall_mem_cons.mp hqueue).2 h

end Trails

/-! ## Paths in a graph -/

namespace Graph

variable {g : Graph} {s t : String} {path : List String}

/-- **A path found in a graph** is a shortest one. -/
theorem isShortestPath_of_mem (h : (t, path) ∈ g.pathsFrom s) :
    IsShortestPath g.DependsOn s t path := by
  obtain ⟨⟨n, trail⟩, hmem, e⟩ := List.mem_map.mp h
  obtain ⟨rfl, rfl⟩ := Prod.mk.inj e
  have hstart : ∀ e ∈ [(s, [s])], Trail g.ahead.targets s (s :: g.ids) e.1 e.2 := by
    intro e he
    rw [List.mem_singleton.mp he]
    exact .singleton _ s _
  obtain ⟨hchain, hfirst, hnode, hnodup⟩ := trail_of_mem_exploreFrom hstart hmem
  have hdistance := isDistance_of_mem_exploreFrom hmem
  rw [inside_ahead] at hdistance
  refine .of_isDistance ?_ ?_ ?_ (List.nodup_reverse.mpr hnodup) ?_
  · exact List.isChain_reverse.mpr (hchain.imp fun b a hb => mem_ahead.mp hb)
  · rw [List.head?_reverse, hfirst]
  · rw [List.getLast?_reverse, hnode]
  · rwa [List.length_reverse]

/-- **The nodes to which paths are found** are those that the start reaches. -/
theorem mem_keys_pathsFrom : t ∈ (g.pathsFrom s).map (·.1) ↔ g.Reaches s t := by
  have hkeys : (g.pathsFrom s).map (·.1) = reached g.ahead.targets g.ids s := by
    rw [pathsFrom, shortestPaths, List.map_map]
    rfl
  rw [hkeys, mem_reached, inside_ahead]
  rfl

theorem nodup_keys_pathsFrom (g : Graph) (s : String) : ((g.pathsFrom s).map (·.1)).Nodup := by
  rw [pathsFrom, shortestPaths, List.map_map]
  exact nodup_exploreFrom

theorem mem_ids_of_mem_path (h : IsShortestPath g.DependsOn s t path) (hne : s ≠ t) {v : String}
    (hv : v ∈ path) : v ∈ g.ids := by
  obtain ⟨before, after, rfl⟩ := List.append_of_mem hv
  obtain ⟨-, hafter, hjoin⟩ := List.isChain_append.mp h.chain
  cases after with
  | cons w after => exact (List.isChain_cons_cons.mp hafter).1.source_mem
  | nil =>
    cases hu : before.getLast? with
    | some u => exact (hjoin u hu v rfl).target_mem
    | none =>
      -- a path of one node would start where it ends
      obtain rfl := List.getLast?_eq_none_iff.mp hu
      exact absurd (Option.some.inj (h.head.symm.trans h.last)) hne

end Graph

end CodeAtlas
