import CodeAtlas.Proofs.Graph.Drafting

/-!
# Edges turned round

A draft stores the ends of the first edge of a key, so it remembers which way an edge went in. Only
a loop, or an edge whose key reads the same both ways, can be turned round unnoticed.

* `Draft.TakesEitherWay`: an edge that can be turned round.
* `Draft.apart_turned`, `Draft.Apart.addEdge`: the turned edge sets drafts apart for good.
-/

namespace CodeAtlas

/-! ## What is stored under a key -/

namespace Draft

variable {d : Draft} {e p : Edge} {key : String}

def stored? (d : Draft) (key : String) : Option Edge := d.edges.find? (·.id == key)

def usesUnder (d : Draft) (key : String) : Int := ((d.stored? key).map (·.count)).getD 0

def sourceUnder? (d : Draft) (key : String) : Option String := (d.stored? key).map (·.source)

theorem stored?_eq_none (h : key ∉ d.edges.map (·.id)) : d.stored? key = none := by
  refine List.find?_eq_none.mpr fun e he hid => h ?_
  exact List.mem_map.mpr ⟨e, he, beq_iff_eq.mp hid⟩

theorem stored?_addEdge_of_mem (h : keyOf e ∈ d.edges.map (·.id)) (key : String) :
    (d.addEdge e).stored? key =
      (d.stored? key).map fun f => if f.id == keyOf e then merged f e else f := by
  rw [addEdge_of_mem h, stored?, stored?, List.find?_map]
  congr 2
  funext f
  by_cases hf : f.id = keyOf e
  · simp [hf, merged_ends]
  · simp [hf]

theorem stored?_addEdge_of_notMem (h : keyOf e ∉ d.edges.map (·.id)) (key : String) :
    (d.addEdge e).stored? key =
      if keyOf e = key then some { e with id := keyOf e } else d.stored? key := by
  rw [addEdge_of_notMem h, stored?, List.find?_append]
  by_cases hkey : keyOf e = key
  · subst hkey
    have hnone : d.edges.find? (·.id == keyOf e) = none := stored?_eq_none h
    simp [hnone]
  · simp [hkey, stored?]

theorem usesUnder_addEdge (h : d.weightFault? e = none) (key : String) :
    (d.addEdge e).usesUnder key = d.usesUnder key + if keyOf e = key then e.count else 0 := by
  by_cases hmem : keyOf e ∈ d.edges.map (·.id)
  · rw [usesUnder, stored?_addEdge_of_mem hmem, usesUnder]
    cases hstored : d.stored? key with
    | none =>
      have hne : keyOf e ≠ key := by
        rintro rfl
        obtain ⟨f, hf, hid⟩ := List.mem_map.mp hmem
        exact absurd (beq_iff_eq.mpr hid) (List.find?_eq_none.mp hstored f hf)
      simp [hne]
    | some f =>
      have hid : f.id = key := by simpa using List.find?_some hstored
      by_cases hkey : keyOf e = key
      · -- the fault was looked for in this very edge
        have hfind : d.edges.find? (·.id == keyOf e) = some f := hkey ▸ hstored
        rw [weightFault?, hfind, Option.bind_some] at h
        have hmerged : (merged f e).count = f.count + e.count := by
          unfold merged
          split at h
          · rfl
          · cases h
        simp [hid, hkey, hmerged]
      · simp [hid, hkey, Ne.symm hkey]
  · rw [usesUnder, stored?_addEdge_of_notMem hmem]
    by_cases hkey : keyOf e = key
    · rw [if_pos hkey, if_pos hkey, usesUnder, ← hkey, stored?_eq_none hmem]
      simp
    · rw [if_neg hkey, if_neg hkey, usesUnder]
      simp

theorem sourceUnder?_addEdge {source : String} (h : d.sourceUnder? key = some source) (e : Edge) :
    (d.addEdge e).sourceUnder? key = some source := by
  obtain ⟨f, hf, hsource⟩ := Option.map_eq_some_iff.mp h
  by_cases hmem : keyOf e ∈ d.edges.map (·.id)
  · rw [sourceUnder?, stored?_addEdge_of_mem hmem, hf]
    by_cases hid : f.id = keyOf e
    · simp [hid, merged_ends, hsource]
    · simp [hid, hsource]
  · have hne : keyOf e ≠ key := by
      rintro rfl
      rw [stored?_eq_none hmem] at hf
      cases hf
    rw [sourceUnder?, stored?_addEdge_of_notMem hmem, if_neg hne, hf]
    exact congrArg some hsource

end Draft

/-! ## Edges that can be turned round -/

def Edge.turned (e : Edge) : Edge := Edge.between e.target e.source e.kind e.weight

namespace Draft

variable {d d' : Draft} {e p : Edge} {key : String}

/-- Turned round, the edge does the same: it leads back, or its key reads the same both ways and is
known. -/
def TakesEitherWay (d : Draft) (e : Edge) : Prop :=
  e.source = e.target ∨ (keyOf e.turned = keyOf e ∧ keyOf e ∈ d.edges.map (·.id))

theorem tryAddEdge_turned (h : d.TakesEitherWay e)
    (he : e = Edge.between e.source e.target e.kind e.weight) :
    d.tryAddEdge e.turned = d.tryAddEdge e := by
  rcases h with hloop | ⟨hkey, hmem⟩
  · have hsame : e.turned = e := by
      rw [Edge.turned, hloop]
      exact (hloop ▸ he).symm
    rw [hsame]
  · -- only the weight and the count are taken in
    have hcount : e.turned.count = e.count := (congrArg Edge.count he).symm
    have hmerged : ∀ x, merged x e.turned = merged x e := fun x => by
      unfold merged
      rw [hcount]
      rfl
    have hfault : d.weightFault? e.turned = d.weightFault? e := by
      unfold weightFault?
      rw [hkey]
      rfl
    unfold tryAddEdge
    rw [hfault, addEdge_of_mem (hkey ▸ hmem), addEdge_of_mem hmem, hkey]
    simp only [hmerged]

def Apart (key : String) (d d' : Draft) : Prop :=
  d.usesUnder key = d'.usesUnder key + 1 ∨
    ∃ s s', s ≠ s' ∧ d.sourceUnder? key = some s ∧ d'.sourceUnder? key = some s'

theorem apart_turned (h : ¬ d.TakesEitherWay e)
    (he : e = Edge.between e.source e.target e.kind e.weight) (hd : d.weightFault? e = none)
    (hd' : d.weightFault? e.turned = none) :
    Apart (keyOf e) (d.addEdge e) (d.addEdge e.turned) := by
  obtain ⟨hne, hnew⟩ := not_or.mp h
  by_cases hkey : keyOf e.turned = keyOf e
  · -- the two edges compete for one key
    have hmem : keyOf e ∉ d.edges.map (·.id) := fun hmem => hnew ⟨hkey, hmem⟩
    refine Or.inr ⟨e.source, e.target, hne, ?_, ?_⟩
    · rw [sourceUnder?, stored?_addEdge_of_notMem hmem, if_pos rfl]
      rfl
    · rw [sourceUnder?, stored?_addEdge_of_notMem (hkey ▸ hmem), if_pos hkey]
      rfl
  · have hcount : e.count = 1 := congrArg Edge.count he
    refine Or.inl ?_
    rw [usesUnder_addEdge hd, usesUnder_addEdge hd', if_pos rfl, if_neg hkey, hcount, Int.add_zero]

theorem Apart.addEdge (h : Apart key d d') (hd : d.weightFault? p = none)
    (hd' : d'.weightFault? p = none) : Apart key (d.addEdge p) (d'.addEdge p) := by
  rcases h with huses | ⟨s, s', hne, hs, hs'⟩
  · refine Or.inl ?_
    rw [usesUnder_addEdge hd, usesUnder_addEdge hd', huses]
    omega
  · exact Or.inr ⟨s, s', hne, sourceUnder?_addEdge hs p, sourceUnder?_addEdge hs' p⟩

def Keyed (d : Draft) : Prop := ∀ e ∈ d.edges, e.id = keyOf e

theorem Keyed.addEdge (h : d.Keyed) (e : Edge) : (d.addEdge e).Keyed := by
  intro x hx
  by_cases hmem : keyOf e ∈ d.edges.map (·.id)
  · rw [addEdge_of_mem hmem] at hx
    obtain ⟨y, hy, rfl⟩ := List.mem_map.mp hx
    obtain ⟨hid, hsource, htarget, hkind⟩ := merged_ends y e
    split
    · rw [hid, h y hy, keyOf, keyOf, hsource, htarget, hkind]
    · exact h y hy
  · rw [addEdge_of_notMem hmem] at hx
    rcases List.mem_append.mp hx with hx | hx
    · exact h x hx
    · obtain rfl := List.mem_singleton.mp hx
      rfl

end Draft

def Edge.signature (e : Edge) : String × String × String × Amount × Int :=
  (e.source, e.kind, e.target, e.weight, e.count)

theorem Draft.Apart.signature_notMem {d d' : Draft} {x : Edge} (h : Apart x.id d d')
    (hd : (d.edges.map (·.id)).Nodup) (hd' : (d'.edges.map (·.id)).Nodup) (hkeyed : d.Keyed)
    (hkeyed' : d'.Keyed) (hx : x ∈ d.edges) :
    x.signature ∉ d'.edges.map Edge.signature := by
  intro hmem
  obtain ⟨y, hy, hsame⟩ := List.mem_map.mp hmem
  simp only [Edge.signature, Prod.mk.injEq] at hsame
  obtain ⟨hsource, hkind, htarget, -, hcount⟩ := hsame
  have hid : y.id = x.id := by
    rw [hkeyed' y hy, hkeyed x hx, keyOf, keyOf, hsource, hkind, htarget]
  have hfind : d.stored? x.id = some x := find?_of_nodup Edge.id hd hx
  have hfind' : d'.stored? x.id = some y := hid ▸ find?_of_nodup Edge.id hd' hy
  rcases h with huses | ⟨s, s', hne, hs, hs'⟩
  · simp only [usesUnder, hfind, hfind', Option.map_some, Option.getD_some] at huses
    omega
  · simp only [sourceUnder?, hfind, hfind', Option.map_some, Option.some.injEq] at hs hs'
    exact hne (hs.symm.trans (hsource.symm.trans hs'))

end CodeAtlas
