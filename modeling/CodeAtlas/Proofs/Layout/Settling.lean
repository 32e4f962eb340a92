import CodeAtlas.Proofs.Layout.Placement

/-!
# Bodies that settle

What waking, the forces between bodies and settling keep, all rounds keep. What settling brings
about holds of all bodies at rest, if there was a round.

* **`Forces.Keeps.run`**, **`Forces.Keeps.run_settled`**: all rounds, and bodies at rest.
-/

namespace CodeAtlas

variable {K : Type} [Geometry K]

/-! ## Properties of all bodies -/

section All

variable {bodies : Array (Body K)} {good : Body K → Prop}

omit [Geometry K] in
theorem forall_modify (h : ∀ b ∈ bodies, good b) {f : Body K → Body K}
    (hf : ∀ b, good b → good (f b)) (i : Nat) : ∀ b ∈ bodies.modify i f, good b := by
  intro b hb
  obtain ⟨j, hj, rfl⟩ := Array.mem_iff_getElem.mp hb
  rw [Array.getElem_modify]
  rw [Array.size_modify] at hj
  split_ifs
  · exact hf _ (h _ (Array.getElem_mem hj))
  · exact h _ (Array.getElem_mem hj)

omit [Geometry K] in
theorem forall_foldl {α : Type} {step : Array (Body K) → α → Array (Body K)} (xs : List α)
    (hstep : ∀ bodies, (∀ b ∈ bodies, good b) → ∀ x ∈ xs, ∀ b ∈ step bodies x, good b)
    (h : ∀ b ∈ bodies, good b) : ∀ b ∈ xs.foldl step bodies, good b := by
  induction xs generalizing bodies with
  | nil => exact h
  | cons x xs ih =>
    refine ih (fun bodies h y hy => hstep bodies h y (List.mem_cons_of_mem x hy)) ?_
    exact hstep bodies h x List.mem_cons_self

omit [Geometry K] in
/-- A body that is changed at some time is at the end what the change makes of a body. -/
theorem exists_of_foldl_modify {f : Body K → Body K} (hf : ∀ b, good b → good (f b))
    (h : ∀ b ∈ bodies, good b) {slots : List Nat} {slot : Nat} (hslot : slot ∈ slots) {b : Body K}
    (hb : (slots.foldl (fun bodies i => bodies.modify i f) bodies)[slot]? = some b) :
    ∃ b₀, good b₀ ∧ b = f b₀ := by
  induction slots using List.reverseRecOn with
  | nil => exact absurd hslot List.not_mem_nil
  | append_singleton slots i ih =>
    rw [List.foldl_append, List.foldl_cons, List.foldl_nil, Array.getElem?_modify] at hb
    split_ifs at hb with hi
    · obtain ⟨b₀, hb₀, rfl⟩ := Option.map_eq_some_iff.mp hb
      have hall := forall_foldl slots (fun bodies h j _ => forall_modify h hf j) h
      exact ⟨b₀, hall b₀ (Array.mem_of_getElem? hb₀), rfl⟩
    · have hmem : slot ∈ slots := by
        rcases List.mem_append.mp hslot with hmem | hmem
        · exact hmem
        · exact absurd (List.mem_singleton.mp hmem).symm hi
      exact ih hmem hb

end All

/-! ## One round and all rounds -/

/-- Forces that keep the property `good` of bodies, with forces of `size`. -/
structure Forces.Keeps (forces : Forces K) (good : Body K → Prop)
    (size strength weight : K → Prop) : Prop where
  wake : ∀ b, good b → good (forces.wake b)
  push : ∀ s a b, strength s → good a → good b →
    size (forceBetween forces.least (forces.push s) a b).1 ∧
      size (forceBetween forces.least (forces.push s) a b).2
  pull : ∀ s w a b, strength s → weight w → good a → good b →
    size (forceBetween forces.least (forces.pull s w) a b).1 ∧
      size (forceBetween forces.least (forces.pull s w) a b).2
  drift : ∀ b fx fy, good b → size fx → size fy → good (b.driven fx fy) ∧ good (b.held fx fy)
  settle : ∀ s b, strength s → good b → good (forces.settle s b)

namespace Forces.Keeps

variable {forces : Forces K} {good : Body K → Prop} {size strength weight : K → Prop}
  {bodies : Array (Body K)} {pulls : List (Pull K)}

theorem pushPair (h : forces.Keeps good size strength weight) {s : K} (hs : strength s)
    (hgood : ∀ b ∈ bodies, good b) (pair : Nat × Nat) :
    ∀ b ∈ pushPair forces.least (forces.push s) bodies pair, good b := by
  unfold CodeAtlas.pushPair
  split
  · rename_i a b ha hb
    obtain ⟨hx, hy⟩ := h.push s a b hs (hgood a (Array.mem_of_getElem? ha))
      (hgood b (Array.mem_of_getElem? hb))
    exact forall_modify (forall_modify hgood (fun b hb => (h.drift b _ _ hb hx hy).2) _)
      (fun b hb => (h.drift b _ _ hb hx hy).1) _
  · exact hgood

theorem pullPair (h : forces.Keeps good size strength weight) {s : K} (hs : strength s)
    (hgood : ∀ b ∈ bodies, good b) {edge : Pull K} (hedge : weight edge.weight) :
    ∀ b ∈ pullPair forces.least (forces.pull s) bodies edge, good b := by
  unfold CodeAtlas.pullPair
  split
  · rename_i a b ha hb
    obtain ⟨hx, hy⟩ := h.pull s edge.weight a b hs hedge (hgood a (Array.mem_of_getElem? ha))
      (hgood b (Array.mem_of_getElem? hb))
    exact forall_modify (forall_modify hgood (fun b hb => (h.drift b _ _ hb hx hy).1) _)
      (fun b hb => (h.drift b _ _ hb hx hy).2) _
  · exact hgood

theorem pulled (h : forces.Keeps good size strength weight)
    (hpulls : ∀ edge ∈ pulls, weight edge.weight) {s : K} (hs : strength s)
    (pairs : List (Nat × Nat)) (hgood : ∀ b ∈ bodies, good b) :
    ∀ b ∈ pulls.foldl (CodeAtlas.pullPair forces.least (forces.pull s))
      (pairs.foldl (CodeAtlas.pushPair forces.least (forces.push s)) (bodies.map forces.wake)),
      good b := by
  have hawake : ∀ b ∈ bodies.map forces.wake, good b := by
    intro b hb
    obtain ⟨b₀, hb₀, rfl⟩ := Array.mem_map.mp hb
    exact h.wake b₀ (hgood b₀ hb₀)
  have hpushed := forall_foldl pairs (fun bodies hgood pair _ => h.pushPair hs hgood pair) hawake
  exact forall_foldl pulls (fun bodies hgood edge hedge =>
    h.pullPair hs hgood (hpulls edge hedge)) hpushed

/-- **One round** keeps the property. -/
theorem step (h : forces.Keeps good size strength weight)
    (hpulls : ∀ edge ∈ pulls, weight edge.weight) {s : K} (hs : strength s) (slots : List Nat)
    (pairs : List (Nat × Nat)) (hgood : ∀ b ∈ bodies, good b) :
    ∀ b ∈ forces.step slots pairs pulls s bodies, good b :=
  forall_foldl slots (fun _ hgood slot _ => forall_modify hgood (fun b => h.settle s b hs) slot)
    (h.pulled hpulls hs pairs hgood)

/-- **All rounds** keep the property. -/
theorem run (h : forces.Keeps good size strength weight)
    (hpulls : ∀ edge ∈ pulls, weight edge.weight) (slots : List Nat) {rounds : Nat}
    (hstrength : ∀ round < rounds, strength (Arith.int 1 - Arith.nat round / Arith.nat rounds))
    (hgood : ∀ b ∈ bodies, good b) : ∀ b ∈ forces.run slots pulls rounds bodies, good b :=
  forall_foldl (List.range rounds) (fun _ hgood round hround =>
    h.step hpulls (hstrength round (List.mem_range.mp hround)) slots _ hgood) hgood

/-- **A body at rest** has been settled, if there was a round. -/
theorem run_settled (h : forces.Keeps good size strength weight)
    (hpulls : ∀ edge ∈ pulls, weight edge.weight) {slots : List Nat} {rounds : Nat}
    (hrounds : 0 < rounds)
    (hstrength : ∀ round < rounds, strength (Arith.int 1 - Arith.nat round / Arith.nat rounds))
    (hgood : ∀ b ∈ bodies, good b) {slot : Nat} (hslot : slot ∈ slots) {b : Body K}
    (hb : (forces.run slots pulls rounds bodies)[slot]? = some b) :
    ∃ s b₀, strength s ∧ good b₀ ∧ b = forces.settle s b₀ := by
  obtain ⟨last, rfl⟩ : ∃ last, rounds = last + 1 := ⟨rounds - 1, by omega⟩
  -- all rounds but the last one keep the property
  have hbefore := forall_foldl (List.range last) (fun _ (hgood : ∀ b ∈ _, good b) round hround =>
    h.step hpulls (hstrength round (Nat.lt_succ_of_lt (List.mem_range.mp hround))) slots
      (laterPairs slots) hgood) hgood
  have hs := hstrength last (Nat.lt_succ_self last)
  rw [Forces.run, List.range_succ, List.foldl_append, List.foldl_cons, List.foldl_nil] at hb
  obtain ⟨b₀, hb₀, rfl⟩ := exists_of_foldl_modify (fun b => h.settle _ b hs)
    (h.pulled hpulls hs (laterPairs slots) hbefore) hslot hb
  exact ⟨_, b₀, hs, hb₀, rfl⟩

end Forces.Keeps

/-! ## The spots of bodies -/

theorem forall_twoByTwo {α : Type} {P : α → Prop} {xs : List α} (h : ∀ x ∈ xs, P x) :
    ∀ pair ∈ twoByTwo xs, P pair.1 ∧ P pair.2 := by
  fun_induction twoByTwo xs with
  | case1 a b rest ih =>
    obtain ⟨ha, h⟩ := List.forall_mem_cons.mp h
    obtain ⟨hb, h⟩ := List.forall_mem_cons.mp h
    exact List.forall_mem_cons.mpr ⟨⟨ha, hb⟩, ih h⟩
  | case2 => exact List.forall_mem_nil _

variable {good : Body K → Prop} {ofAmount : Amount → K} {place : K → K → Body K}

/-- The first bodies have a property that all bodies have. -/
theorem forall_firstBodies {fraction : K → Prop} (root : Option String) (ids : List String)
    (hfraction : ∀ c ∈ (layoutFractions root ids (2 * ids.length) : List K), fraction c)
    (hplace : ∀ a b, fraction a → fraction b → good (place a b)) :
    ∀ b ∈ firstBodies place root ids, good b := by
  intro b hb
  obtain ⟨id, -, hid⟩ := List.mem_filterMap.mp (List.mem_toArray.mp hb)
  obtain ⟨⟨id', a, c⟩, hfound, rfl⟩ := Option.map_eq_some_iff.mp hid
  have hdraw := List.of_mem_zip (List.mem_reverse.mp (List.mem_of_find?_eq_some hfound))
  obtain ⟨ha, hc⟩ := forall_twoByTwo hfraction _ hdraw.2
  exact hplace a c ha hc

omit [Geometry K] in
theorem forall_pullsOf {P : K → Prop} (h : ∀ a, P (ofAmount a)) (slots : List String)
    (edges : List Edge) :
    ∀ edge ∈ pullsOf ofAmount slots edges, P edge.weight := by
  intro edge hedge
  obtain ⟨e, -, he⟩ := List.mem_filterMap.mp hedge
  obtain ⟨source, -, he⟩ := Option.bind_eq_some_iff.mp he
  obtain ⟨target, -, he⟩ := Option.bind_eq_some_iff.mp he
  obtain rfl := Option.some.inj he
  exact h e.weight

theorem roundsFor_pos (nodes : Int) {requested : Int} (h : 0 < requested) :
    0 < (roundsFor nodes requested).toNat := by
  unfold roundsFor
  split_ifs <;> omega

/-- **The spot of a node** under forces is that of a body that has been settled. -/
theorem Graph.bodySpots_settled {forces : Forces K} {size strength weight : K → Prop}
    (h : forces.Keeps good size strength weight) (hweight : ∀ a, weight (ofAmount a)) (g : Graph)
    {frame : Frame K} (hrounds : 0 < frame.rounds)
    (hstrength : ∀ round rounds : Nat, round < rounds →
      strength (Arith.int 1 - Arith.nat round / Arith.nat rounds)) {root : Option String}
    (hfirst : ∀ b ∈ firstBodies place root g.ids, good b) :
    ∀ s ∈ g.bodySpots ofAmount forces place frame root, ∀ spot ∈ s,
      ∃ left b, strength left ∧ good b ∧
        spot = { x := (forces.settle left b).x, y := (forces.settle left b).y } := by
  intro s hs spot hspot
  obtain ⟨slot, hslot, rfl⟩ := List.mem_map.mp hs
  obtain ⟨rest, hrest, rfl⟩ := Option.map_eq_some_iff.mp hspot
  obtain ⟨left, b, hleft, hb, rfl⟩ := h.run_settled (forall_pullsOf hweight _ _)
    (roundsFor_pos _ hrounds) (fun round hround => hstrength round _ hround) hfirst hslot hrest
  exact ⟨left, b, hleft, hb, rfl⟩

end CodeAtlas
