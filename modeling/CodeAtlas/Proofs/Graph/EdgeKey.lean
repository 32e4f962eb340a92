import CodeAtlas.Proofs.Graph.Drafting

/-!
# Keys of edges

The key of an edge joins source, kind and target with colons, and ids hold colons too. So the keys
of two edges agree also where the source of the one goes on with the kind of the other.

* **`Drafting.shares_edge_iff`**: when two edges are stored as one, and what is found of the others.
-/

namespace CodeAtlas

/-! ## Texts cut at a character -/

section Cut

variable {c : Char} {a b x y : List Char}

theorem char_cut : a ++ c :: x = b ++ c :: y ↔
    (a = b ∧ x = y) ∨ (∃ w, b = a ++ c :: w ∧ x = w ++ c :: y) ∨
      ∃ w, a = b ++ c :: w ∧ y = w ++ c :: x := by
  constructor
  · intro h
    rcases List.append_eq_append_iff.mp h with ⟨w, rfl, hw⟩ | ⟨w, rfl, hw⟩
    · cases w with
      | nil => exact Or.inl ⟨(List.append_nil a).symm, (List.cons.inj hw).2⟩
      | cons d w =>
        obtain ⟨rfl, hx⟩ := List.cons.inj hw
        exact Or.inr (Or.inl ⟨w, rfl, hx⟩)
    · cases w with
      | nil => exact Or.inl ⟨List.append_nil b, (List.cons.inj hw).2.symm⟩
      | cons d w =>
        obtain ⟨rfl, hy⟩ := List.cons.inj hw
        exact Or.inr (Or.inr ⟨w, rfl, hy⟩)
  · rintro (⟨rfl, rfl⟩ | ⟨w, rfl, rfl⟩ | ⟨w, rfl, rfl⟩) <;> simp

theorem char_cut_first (ha : c ∉ a) : a ++ c :: x = b ++ c :: y ↔
    (a = b ∧ x = y) ∨ ∃ w, b = a ++ c :: w ∧ x = w ++ c :: y := by
  have hno : ¬ ∃ w, a = b ++ c :: w ∧ y = w ++ c :: x := by
    rintro ⟨w, rfl, -⟩
    exact ha (by simp)
  rw [char_cut, or_iff_left hno]

end Cut

/-! ## Edges with one key -/

namespace Edge

def SameEnds (e f : Edge) : Prop := e.source = f.source ∧ e.kind = f.kind ∧ e.target = f.target

/-- The source of the second edge holds the source and the kind of the first. -/
def RecutAs (e f : Edge) : Prop :=
  (f.source = e.source ++ ":" ++ e.kind ∧ e.target = f.kind ++ ":" ++ f.target) ∨
    ∃ middle, f.source = e.source ++ ":" ++ e.kind ++ ":" ++ middle ∧
      e.target = middle ++ ":" ++ f.kind ++ ":" ++ f.target

theorem RecutAs.length_lt {e f : Edge} (h : e.RecutAs f) : e.source.length < f.source.length := by
  have hcolon : ":".length = 1 := rfl
  rcases h with ⟨hs, -⟩ | ⟨middle, hs, -⟩
  · simp only [hs, String.length_append, hcolon]
    omega
  · simp only [hs, String.length_append, hcolon]
    omega

theorem Gathers.sameEnds {parts : List Edge} {e first : Edge} (h : e.Gathers parts)
    (hfirst : parts.head? = some first) : e.SameEnds first := by
  obtain ⟨first', hfirst', he⟩ := h.first
  obtain rfl : first' = first := Option.some.inj (hfirst'.symm.trans hfirst)
  rw [he]
  exact ⟨rfl, rfl, rfl⟩

end Edge

theorem colon_notMem_of_edgeKinds {kind : String} (h : kind ∈ edgeKinds) :
    ':' ∉ kind.toList := by
  have hall : ∀ k ∈ edgeKinds, ':' ∉ k.toList := by decide
  exact hall kind h

namespace Draft

variable {e f : Edge}

theorem toList_keyOf (e : Edge) : (keyOf e).toList =
    e.source.toList ++ ':' :: (e.kind.toList ++ ':' :: e.target.toList) := by
  have hcolon : ":".toList = [':'] := rfl
  simp [keyOf, edgeKey, hcolon]

theorem recutAs_iff (hkind : ':' ∉ e.kind.toList) :
    e.RecutAs f ↔ ∃ w, f.source.toList = e.source.toList ++ ':' :: w ∧
      e.kind.toList ++ ':' :: e.target.toList =
        w ++ ':' :: (f.kind.toList ++ ':' :: f.target.toList) := by
  have hcolon : ":".toList = [':'] := rfl
  simp only [char_cut_first hkind]
  constructor
  · rintro (⟨hs, ht⟩ | ⟨middle, hs, ht⟩)
    · exact ⟨e.kind.toList, by simp [hs, hcolon], Or.inl ⟨rfl, by simp [ht, hcolon]⟩⟩
    · exact ⟨e.kind.toList ++ ':' :: middle.toList, by simp [hs, hcolon],
        Or.inr ⟨middle.toList, rfl, by simp [ht, hcolon]⟩⟩
  · rintro ⟨w, hs, ⟨rfl, ht⟩ | ⟨middle, rfl, ht⟩⟩
    · refine Or.inl ⟨String.toList_inj.mp ?_, String.toList_inj.mp ?_⟩
      · simp [hs, hcolon]
      · simp [ht, hcolon]
    · refine Or.inr ⟨String.ofList middle, String.toList_inj.mp ?_, String.toList_inj.mp ?_⟩
      · simp [hs, hcolon]
      · simp [ht, hcolon]

/-- Two edges of the usual kinds have one key just if they are the same or cut it differently. -/
theorem keyOf_eq_iff (he : e.kind ∈ edgeKinds) (hf : f.kind ∈ edgeKinds) :
    keyOf e = keyOf f ↔ e.SameEnds f ∨ e.RecutAs f ∨ f.RecutAs e := by
  have hke := colon_notMem_of_edgeKinds he
  have hkf := colon_notMem_of_edgeKinds hf
  have hsame : e.source.toList = f.source.toList ∧
      e.kind.toList ++ ':' :: e.target.toList = f.kind.toList ++ ':' :: f.target.toList ↔
      e.SameEnds f := by
    rw [char_cut_first hke, Edge.SameEnds, String.toList_inj, String.toList_inj, String.toList_inj]
    refine and_congr_right fun _ => or_iff_left ?_
    rintro ⟨w, hw, -⟩
    exact hkf (by simp [hw])
  rw [← String.toList_inj, toList_keyOf, toList_keyOf, char_cut, hsame, recutAs_iff hke,
    recutAs_iff hkf]

end Draft

/-! ## Edges stored as one -/

namespace Draft.Collects

variable {d : Draft} {added : List Edge} {e : Edge}

theorem exists_stored (h : d.Collects added) (he : e ∈ added) : ∃ g ∈ d.edges, g.id = keyOf e := by
  have hkey : keyOf e ∈ d.edges.map (·.id) := by
    rw [h.edgeIds, List.mem_eraseDups]
    exact List.mem_map_of_mem he
  exact List.mem_map.mp hkey

theorem exists_added (h : d.Collects added) (he : e ∈ d.edges) :
    ∃ p ∈ added, keyOf p = e.id ∧ e.SameEnds p := by
  obtain ⟨first, hfirst, -⟩ := (h.gathers e he).first
  obtain ⟨hmem, hkey⟩ := List.mem_filter.mp (List.mem_of_mem_head? hfirst)
  exact ⟨first, hmem, beq_iff_eq.mp hkey, (h.gathers e he).sameEnds hfirst⟩

end Draft.Collects

namespace Drafting

theorem done_subset (calls : List DraftCall) : (ofCalls calls).done ⊆ calls := by
  unfold ofCalls
  induction calls using List.reverseRecOn with
  | nil => exact List.Subset.refl _
  | append_singleton calls c ih =>
    rw [List.foldl_append, List.foldl_cons, List.foldl_nil, take]
    split
    · exact List.append_subset.mpr ⟨List.subset_append_of_subset_left _ ih,
        List.subset_append_right _ _⟩
    · exact List.subset_append_of_subset_left _ ih

variable {s : Drafting} {e : Edge}

theorem mem_edges : e ∈ s.edges ↔ DraftCall.edge e ∈ s.done := by
  rw [edges, List.mem_filterMap]
  constructor
  · rintro ⟨c, hc, hedge⟩
    cases c with
    | node n => cases hedge
    | edge f =>
      obtain rfl := Option.some.inj hedge
      exact hc
  · exact fun h => ⟨_, h, rfl⟩

/-- **When two edges are stored as one.** After any calls that add edges of the usual kinds, two
share a stored edge just if they are the same or their keys are cuts of one text. Any other is found
again. -/
theorem shares_edge_iff (calls : List DraftCall) (now : String)
    (hkinds : ∀ e, DraftCall.edge e ∈ calls → e.kind ∈ edgeKinds) :
    let s := ofCalls calls
    (∀ e ∈ s.edges, ∀ f ∈ s.edges,
      (∃ g ∈ s.draft.edges, g.id = Draft.keyOf e ∧ g.id = Draft.keyOf f) ↔
        e.SameEnds f ∨ e.RecutAs f ∨ f.RecutAs e) ∧
    (∀ e ∈ s.edges, (∀ f ∈ s.edges, ¬ e.RecutAs f ∧ ¬ f.RecutAs e) →
      (∃ g ∈ (s.draft.graph now).edges, g.SameEnds e) ∧
      (e.kind ≠ containment → e.target ∈ s.draft.neighbors e.source)) := by
  intro s
  have h : s.Kept := kept_ofCalls calls
  have hkind : ∀ e ∈ s.edges, e.kind ∈ edgeKinds := fun e he =>
    hkinds e (done_subset calls (mem_edges.mp he))
  refine ⟨fun e he f hf => ?_, fun e he hcut => ?_⟩
  · rw [← Draft.keyOf_eq_iff (hkind e he) (hkind f hf)]
    constructor
    · rintro ⟨g, -, hge, hgf⟩
      exact hge.symm.trans hgf
    · intro hkey
      obtain ⟨g, hg, hid⟩ := h.collects.exists_stored he
      exact ⟨g, hg, hid, hid.trans hkey⟩
  · -- the stored edge has the ends of some added one, which no cut tells from `e`
    obtain ⟨g, hg, hid⟩ := h.collects.exists_stored he
    obtain ⟨p, hp, hkey, hends⟩ := h.collects.exists_added hg
    have hsame : g.SameEnds e := by
      rcases (Draft.keyOf_eq_iff (hkind p hp) (hkind e he)).mp (hkey.trans hid) with hpe | hcuts
      · exact ⟨hends.1.trans hpe.1, hends.2.1.trans hpe.2.1, hends.2.2.trans hpe.2.2⟩
      · exact absurd hcuts (not_or.mpr ⟨(hcut p hp).2, (hcut p hp).1⟩)
    refine ⟨⟨g, hg, hsame⟩, fun hc => ?_⟩
    rw [h.linked.ahead, mem_targetsIn, Draft.mem_dependencyPairs]
    exact ⟨g, hg, hsame.2.1 ▸ hc, hsame.1, hsame.2.2⟩

def plainImports : List DraftCall :=
  [.edge (Edge.between "file:a.ts" "file:b.ts" "imports"),
    .edge (Edge.between "file:c.ts" "file:b.ts" "imports")]

theorem shares_edge_plainImports :
    (ofCalls plainImports).edges.map (fun e => (e.source, e.target)) =
      [("file:a.ts", "file:b.ts"), ("file:c.ts", "file:b.ts")] ∧
    ∀ e ∈ (ofCalls plainImports).edges,
      e.target ∈ (ofCalls plainImports).draft.neighbors e.source := by
  have hkinds : ∀ e, DraftCall.edge e ∈ plainImports → e.kind ∈ edgeKinds := by
    simp [plainImports, Edge.between, edgeKinds]
  have hedges : (ofCalls plainImports).edges = plainImports.filterMap DraftCall.edge? := by
    rw [edges, done_ofCalls]
    simp [plainImports, Edge.between]
  -- the sources are of one length, so none of them goes on behind another
  have hcut : ∀ e ∈ (ofCalls plainImports).edges, ∀ f ∈ (ofCalls plainImports).edges,
      ¬ e.RecutAs f := by
    have hlen : ∀ e ∈ (ofCalls plainImports).edges, e.source.length = 9 := by
      rw [hedges]
      decide
    intro e he f hf hr
    have hlt := hr.length_lt
    rw [hlen e he, hlen f hf] at hlt
    exact Nat.lt_irrefl 9 hlt
  have hdep : ∀ e ∈ (ofCalls plainImports).edges, e.kind ≠ containment := by
    rw [hedges]
    decide
  obtain ⟨-, hfound⟩ := shares_edge_iff plainImports "" hkinds
  refine ⟨by rw [hedges]; rfl, fun e he => ?_⟩
  exact (hfound e he fun f hf => ⟨hcut e he f hf, hcut f hf e he⟩).2 (hdep e he)

/-- An import and another one whose key is a later cut of the same text. -/
def recutImports : List DraftCall :=
  [.edge (Edge.between "a" "b:imports:c" "imports"),
    .edge (Edge.between "a:imports:b" "c" "imports")]

/-- **An edge that is not found again.** Both edges are added; one is stored. -/
theorem edge_lost_to_recut :
    (ofCalls recutImports).edges.map (fun e => (e.source, e.target)) =
      [("a", "b:imports:c"), ("a:imports:b", "c")] ∧
    (ofCalls recutImports).draft.edges.map (fun e => (e.source, e.target, e.count)) =
      [("a", "b:imports:c", 2)] ∧
    (ofCalls recutImports).draft.neighbors "a:imports:b" = [] := by
  refine ⟨by decide, by decide, ?_⟩
  rw [(kept_ofCalls recutImports).linked.ahead]
  decide

end Drafting

end CodeAtlas
