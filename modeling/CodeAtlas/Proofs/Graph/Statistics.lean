import CodeAtlas.Graph.Statistics
import CodeAtlas.Proofs.Graph.BreadthFirst
import CodeAtlas.Proofs.Number.Closeness
import Mathlib.Algebra.BigOperators.Ring.Finset
import Mathlib.Data.Set.Card

/-!
# Pieces and degrees

The pieces of a graph are the classes of nodes joined over edges of every kind, whatever way they
lead. A search covers the piece of its start, so each piece is counted at its first node.

* **`Graph.statistics_of_joined`**: the pieces and the degrees among the figures of a graph.
-/

namespace CodeAtlas

open Relation

namespace Graph

/-- All that is joined to a node over any number of edges, whatever way they lead. -/
def pieceOf (g : Graph) (a : String) : Set String := {b | EqvGen g.Connects a b}

/-- How many nodes are ahead of a node and behind it. -/
noncomputable def degreeOf (g : Graph) (a : String) : ℕ :=
  {b | g.Connects a b}.ncard + {b | g.Connects b a}.ncard

def joined (g : Graph) : Set (String × String) := {p | g.Connects p.1 p.2}

variable {g : Graph} {a b : String}

theorem pieceOf_eq_iff : g.pieceOf a = g.pieceOf b ↔ EqvGen g.Connects a b := by
  constructor
  · intro h
    have hb : b ∈ g.pieceOf b := EqvGen.refl b
    rwa [← h] at hb
  · intro h
    ext c
    exact ⟨(h.symm _ _).trans _ _ c, h.trans _ _ c⟩

end Graph

/-! ## Pieces -/

section Pieces

variable {C : Type} [DecidableEq C] {next : String → List String} {ids : List String}

def countPiece (next : String → List String) (ids : List String) (found : ℕ × List String)
    (id : String) : ℕ × List String :=
  if found.2.contains id then found else (found.1 + 1, found.2 ++ reached next ids id)

theorem pieces_eq_foldl (next : String → List String) (ids : List String) :
    pieces next ids = (ids.foldl (countPiece next ids) (0, [])).1 := rfl

/-- The classes of the nodes that have been gone through are counted and covered. -/
structure Covers (classOf : String → C) (ids done : List String) (found : ℕ × List String) :
    Prop where
  count : found.1 = (done.toFinset.image classOf).card
  covered : ∀ b ∈ ids, (b ∈ found.2 ↔ ∃ a ∈ done, classOf a = classOf b)

theorem Covers.step {classOf : String → C}
    (hreached : ∀ a ∈ ids, ∀ b ∈ ids, (b ∈ reached next ids a ↔ classOf a = classOf b))
    {done : List String} {found : ℕ × List String} (h : Covers classOf ids done found)
    {id : String} (hid : id ∈ ids) :
    Covers classOf ids (done ++ [id]) (countPiece next ids found id) := by
  have himage : (done ++ [id]).toFinset.image classOf =
      insert (classOf id) (done.toFinset.image classOf) := by
    simp [List.toFinset_append]
  have hmem : classOf id ∈ done.toFinset.image classOf ↔ id ∈ found.2 := by
    rw [h.covered id hid]
    simp
  have hor : ∀ b, (∃ a ∈ done ++ [id], classOf a = classOf b) ↔
      (∃ a ∈ done, classOf a = classOf b) ∨ classOf id = classOf b := by
    intro b
    simp [or_and_right, exists_or]
  unfold countPiece
  split_ifs with hcovered
  · -- the class of the node has been counted
    rw [List.contains_iff_mem] at hcovered
    refine ⟨?_, fun b hb => ?_⟩
    · rw [himage, Finset.insert_eq_of_mem (hmem.mpr hcovered), h.count]
    · rw [hor, h.covered b hb]
      refine ⟨Or.inl, fun hb => hb.elim (fun hb => hb) fun hb => ?_⟩
      obtain ⟨a, ha, hclass⟩ := (h.covered id hid).mp hcovered
      exact ⟨a, ha, hclass.trans hb⟩
  · -- the node is the first of its class
    rw [List.contains_iff_mem] at hcovered
    refine ⟨?_, fun b hb => ?_⟩
    · rw [himage, Finset.card_insert_of_notMem (hcovered ∘ hmem.mp), h.count]
    · rw [hor, List.mem_append, h.covered b hb, hreached id hid b hb]

/-- **Searches that cover classes count them.** -/
theorem pieces_eq_card (classOf : String → C)
    (hreached : ∀ a ∈ ids, ∀ b ∈ ids, (b ∈ reached next ids a ↔ classOf a = classOf b)) :
    pieces next ids = (ids.toFinset.image classOf).card := by
  suffices hall : ∀ done, (∀ id ∈ done, id ∈ ids) →
      Covers classOf ids done (done.foldl (countPiece next ids) (0, [])) by
    rw [pieces_eq_foldl, (hall ids fun _ h => h).count]
  intro done
  induction done using List.reverseRecOn with
  | nil => exact fun _ => ⟨rfl, fun b _ => by simp⟩
  | append_singleton done id ih =>
    intro hdone
    rw [List.foldl_append]
    exact (ih fun a ha => hdone a (List.mem_append_left _ ha)).step hreached
      (hdone id (List.mem_append_right _ (List.mem_singleton_self id)))

end Pieces

namespace Graph

variable {g : Graph} {a b : String}

def around (g : Graph) (id : String) : List String :=
  (Links.ofPairs g.connections).targets id ++
    (Links.ofPairs (g.connections.map Prod.swap)).targets id

theorem mem_around : b ∈ g.around a ↔ SymmGen g.Connects a b := by
  rw [around, List.mem_append, Links.targets_ofPairs, Links.targets_ofPairs, mem_targetsIn,
    mem_targetsIn, List.mem_map_swap, mem_connections, mem_connections]
  rfl

theorem mem_reached_around : b ∈ reached g.around g.ids a ↔ g.pieceOf a = g.pieceOf b := by
  have hinside : Inside g.around (a :: g.ids) = SymmGen g.Connects := by
    funext x y
    rw [Inside, mem_around]
    refine propext ⟨fun h => h.1, fun h => ⟨h, List.mem_cons_of_mem _ ?_⟩⟩
    exact h.elim (fun h => h.2.1) fun h => h.1
  rw [mem_reached, hinside, EqvGen.reflTransGen_symmGen, pieceOf_eq_iff]

open Classical in
theorem pieceCount_eq (g : Graph) :
    g.pieceCount = (Set.image g.pieceOf {id | id ∈ g.ids}).ncard := by
  have hcard : g.pieceCount = (g.ids.toFinset.image g.pieceOf).card :=
    pieces_eq_card g.pieceOf fun a _ b _ => mem_reached_around
  rw [hcard, ← Set.ncard_coe_finset, Finset.coe_image, List.coe_toFinset]

/-! ## Degrees -/

variable {pairs : List (String × String)} {K : Type}

theorem length_targets {s : Set String} (h : ∀ b, b ∈ s ↔ (a, b) ∈ pairs) :
    ((Links.ofPairs pairs).targets a).length = s.ncard := by
  have hs : s = ((targetsIn pairs a).toFinset : Set String) := by
    ext b
    rw [h, List.coe_toFinset]
    exact mem_targetsIn.symm
  rw [hs, Set.ncard_coe_finset, List.toFinset_card_of_nodup (nodup_targetsIn pairs a),
    Links.targets_ofPairs]

theorem degrees_eq (g : Graph) : g.degrees = g.ids.map g.degreeOf := by
  refine List.map_congr_left fun a _ => ?_
  rw [degreeOf, length_targets (s := {b | g.Connects a b}) fun b => mem_connections.symm,
    length_targets (s := {b | g.Connects b a}) fun b =>
      mem_connections.symm.trans (List.mem_map_swap b a _).symm]

theorem sum_length_targets {ids : List String} (hids : ids.Nodup)
    (hsource : ∀ p ∈ pairs, p.1 ∈ ids) :
    (ids.map fun a => ((Links.ofPairs pairs).targets a).length).sum = pairs.toFinset.card := by
  have hfiber : ∀ a, ((Links.ofPairs pairs).targets a).length =
      (pairs.toFinset.filter (·.1 = a)).card := by
    intro a
    have htargets : (targetsIn pairs a).toFinset =
        (pairs.toFinset.filter (·.1 = a)).image Prod.snd := by
      ext b
      simp [mem_targetsIn]
    rw [Links.targets_ofPairs, ← List.toFinset_card_of_nodup (nodup_targetsIn pairs a), htargets]
    refine Finset.card_image_of_injOn fun p hp q hq hsnd => Prod.ext ?_ hsnd
    rw [Finset.mem_coe, Finset.mem_filter] at hp hq
    rw [hp.2, hq.2]
  rw [← List.sum_toFinset _ hids, Finset.sum_congr rfl fun a _ => hfiber a]
  exact (Finset.card_eq_sum_card_fiberwise fun p hp =>
    List.mem_toFinset.mpr (hsource p (List.mem_toFinset.mp hp))).symm

theorem card_connections (g : Graph) : g.connections.toFinset.card = g.joined.ncard := by
  have hjoined : g.joined = (g.connections.toFinset : Set (String × String)) := by
    ext p
    rw [List.coe_toFinset]
    exact mem_connections.symm
  rw [hjoined, Set.ncard_coe_finset]

/-- **Handshakes.** The degrees add up to twice the number of joined pairs. -/
theorem sum_degrees (hids : g.ids.Nodup) :
    g.degrees.foldr (· + ·) 0 = 2 * g.joined.ncard := by
  have hsource : ∀ p ∈ g.connections, p.1 ∈ g.ids := fun p hp => (mem_connections.mp hp).1
  have hswapped : ∀ p ∈ g.connections.map Prod.swap, p.1 ∈ g.ids := by
    rintro ⟨b, a⟩ hp
    exact (mem_connections.mp ((List.mem_map_swap a b _).mp hp)).2.1
  have hcard : (g.connections.map Prod.swap).toFinset.card = g.connections.toFinset.card := by
    have himage : (g.connections.map Prod.swap).toFinset =
        g.connections.toFinset.image Prod.swap := by
      ext p
      simp
    rw [himage]
    exact Finset.card_image_of_injective _ Prod.swap_injective
  calc g.degrees.foldr (· + ·) 0
      = (g.ids.map fun a => ((Links.ofPairs g.connections).targets a).length).sum +
          (g.ids.map fun a =>
            ((Links.ofPairs (g.connections.map Prod.swap)).targets a).length).sum :=
        List.sum_map_add
    _ = 2 * g.joined.ncard := by
        rw [sum_length_targets hids hsource, sum_length_targets hids hswapped, hcard,
          card_connections, two_mul]

/-! ## Figures -/

theorem isGreatest_maxDegree (g : Graph) [Arith K] :
    IsGreatest (insert 0 (Set.image g.degreeOf {id | id ∈ g.ids}))
      (g.statistics : Statistics K).maxDegree := by
  have hgreatest := isGreatest_foldl_max g.degrees 0
  have hset : {d | d ∈ 0 :: g.degrees} = insert 0 (Set.image g.degreeOf {id | id ∈ g.ids}) := by
    ext d
    simp [degrees_eq]
  rwa [hset] at hgreatest

theorem averageDegree_eq (hids : g.ids.Nodup) [Arith K] :
    (g.statistics : Statistics K).averageDegree =
      if g.nodes.length = 0 then Arith.int 0
      else Arith.nat (2 * g.joined.ncard) / Arith.nat g.nodes.length := by
  simp only [statistics, sum_degrees hids]

theorem nodeCount_eq (g : Graph) [Arith K] :
    (g.statistics : Statistics K).nodeCount = g.nodes.length := rfl

theorem joined_of_no_nodes (h : g.nodes.length = 0) : g.joined = ∅ := by
  refine Set.eq_empty_of_forall_notMem fun p hp => ?_
  have hmem : p.1 ∈ g.nodes.map (·.id) := hp.1
  rw [List.length_eq_zero_iff.mp h] at hmem
  exact List.not_mem_nil hmem

/-- Exactly computed, the degrees are twice the pairs. -/
theorem averageDegree_mul (hids : g.ids.Nodup) :
    (g.statistics : Statistics ℚ).averageDegree * (g.statistics : Statistics ℚ).nodeCount =
      2 * g.joined.ncard := by
  rw [averageDegree_eq hids, nodeCount_eq]
  split_ifs with hnone
  · simp [hnone, joined_of_no_nodes hnone]
  · have hne : (g.nodes.length : ℚ) ≠ 0 := Nat.cast_ne_zero.mpr hnone
    rw [Arith.nat_rat, Arith.nat_rat, div_mul_cancel₀ _ hne]
    push_cast
    rfl

theorem averageDegree_close (hids : g.ids.Nodup) (hnodes : g.nodes.length < exactLimit)
    (hjoined : 2 * g.joined.ncard < exactLimit) :
    ∃ b, Binary.ofFloat? (g.statistics : Statistics Float).averageDegree = some b ∧
      b.negative = false ∧
      |b.size * (g.statistics : Statistics Float).nodeCount - 2 * g.joined.ncard| ≤
        2 * g.joined.ncard / 2 ^ 52 := by
  rw [averageDegree_eq hids, nodeCount_eq]
  split_ifs with hnone
  · exact ⟨⟨false, 0, -1074, false⟩, rfl, rfl, by simp [hnone, joined_of_no_nodes hnone]⟩
  · obtain ⟨b, hb, hsign, hclose⟩ := exists_close_div hjoined (Nat.pos_of_ne_zero hnone) hnodes
    have hpos : (0 : ℚ) < g.nodes.length := by exact_mod_cast Nat.pos_of_ne_zero hnone
    refine ⟨b, hb, hsign, ?_⟩
    push_cast at hclose
    calc |b.size * (g.nodes.length : ℚ) - 2 * g.joined.ncard|
        = |b.size - 2 * g.joined.ncard / g.nodes.length| * g.nodes.length := by
          rw [← abs_of_pos hpos, ← abs_mul, abs_of_pos hpos, sub_mul, div_mul_cancel₀ _ hpos.ne']
      _ ≤ 2 * g.joined.ncard / g.nodes.length / 2 ^ 52 * g.nodes.length := by gcongr
      _ = 2 * g.joined.ncard / 2 ^ 52 := by
          field_simp

/-- **Pieces and degrees.** The connected components are the pieces of the graph, and the average
degree times the number of nodes is twice the number of joined pairs: up to one part in `2 ^ 52` for
the numbers of the program. -/
theorem statistics_of_joined (g : Graph) (hids : g.ids.Nodup) :
    (∀ (K : Type) [Arith K],
      (g.statistics : Statistics K).connectedComponents =
        (Set.image g.pieceOf {id | id ∈ g.ids}).ncard ∧
      IsGreatest (insert 0 (Set.image g.degreeOf {id | id ∈ g.ids}))
        (g.statistics : Statistics K).maxDegree) ∧
    (g.statistics : Statistics ℚ).averageDegree * (g.statistics : Statistics ℚ).nodeCount =
      2 * g.joined.ncard ∧
    (g.nodes.length < exactLimit → 2 * g.joined.ncard < exactLimit →
      ∃ b, Binary.ofFloat? (g.statistics : Statistics Float).averageDegree = some b ∧
        b.negative = false ∧
        |b.size * (g.statistics : Statistics Float).nodeCount - 2 * g.joined.ncard| ≤
          2 * g.joined.ncard / 2 ^ 52) :=
  ⟨fun _ _ => ⟨g.pieceCount_eq, g.isGreatest_maxDegree⟩, averageDegree_mul hids,
    averageDegree_close hids⟩

end Graph

namespace SelfJoined

/-- A node joined to itself and twice to another, and one joined to nothing known. -/
def graph : Graph where
  nodes := ["a", "b", "c"].map fun id => { id := id, kind := "file", name := id, path := id }
  edges := [.between "a" "a" "calls", .between "a" "b" "contains", .between "a" "b" "calls",
    .between "c" "x" "imports"]
  metadata := { generatedAt := "" }

variable {a b : String}

theorem connects_iff : graph.Connects a b ↔ a = "a" ∧ (b = "a" ∨ b = "b") := by
  have hconnections : graph.connections = [("a", "a"), ("a", "b"), ("a", "b")] := by decide +kernel
  rw [← Graph.mem_connections, hconnections]
  simp only [List.mem_cons, Prod.mk.injEq, List.not_mem_nil, or_false]
  tauto

theorem apart_of_eqvGen (h : EqvGen graph.Connects a b) :
    decide (a = "c") = decide (b = "c") := by
  induction h with
  | rel x y h => obtain ⟨rfl, rfl | rfl⟩ := connects_iff.mp h <;> decide
  | refl => rfl
  | symm _ _ _ ih => exact ih.symm
  | trans _ _ _ _ _ ih₁ ih₂ => exact ih₁.trans ih₂

theorem pieceOf_eq_iff (ha : a ∈ graph.ids) (hb : b ∈ graph.ids) :
    graph.pieceOf a = graph.pieceOf b ↔ decide (a = "c") = decide (b = "c") := by
  have hab : EqvGen graph.Connects "a" "b" := .rel _ _ (connects_iff.mpr ⟨rfl, Or.inr rfl⟩)
  have hids : graph.ids = ["a", "b", "c"] := by decide +kernel
  rw [Graph.pieceOf_eq_iff]
  refine ⟨apart_of_eqvGen, fun h => ?_⟩
  simp only [hids, List.mem_cons, List.not_mem_nil, or_false] at ha hb
  rcases ha with rfl | rfl | rfl <;> rcases hb with rfl | rfl | rfl
  · exact .refl _
  · exact hab
  · exact absurd h (by decide)
  · exact hab.symm
  · exact .refl _
  · exact absurd h (by decide)
  · exact absurd h (by decide)
  · exact absurd h (by decide)
  · exact .refl _

end SelfJoined

/-- There are two pieces, two joined pairs and four ends of them, three at one node. -/
theorem Graph.statistics_selfJoined :
    SelfJoined.graph.ids.Nodup ∧
    (Set.image SelfJoined.graph.pieceOf {id | id ∈ SelfJoined.graph.ids}).ncard = 2 ∧
    IsGreatest (insert 0 (Set.image SelfJoined.graph.degreeOf {id | id ∈ SelfJoined.graph.ids})) 3 ∧
    SelfJoined.graph.joined.ncard = 2 := by
  have hids : SelfJoined.graph.ids.Nodup := by decide +kernel
  have hpieces : SelfJoined.graph.pieceCount = 2 :=
    (pieces_eq_card (fun id => decide (id = "c")) fun a ha b hb =>
      mem_reached_around.trans (SelfJoined.pieceOf_eq_iff ha hb)).trans (by decide +kernel)
  have hdegrees : SelfJoined.graph.degrees = [3, 1, 0] := by
    simp only [degrees, Links.targets_ofPairs]
    decide +kernel
  have hmax : (SelfJoined.graph.statistics : Statistics ℚ).maxDegree = 3 := by
    simp only [statistics, hdegrees]
    decide
  have hsum : (SelfJoined.graph.statistics : Statistics ℚ).averageDegree *
      (SelfJoined.graph.statistics : Statistics ℚ).nodeCount = 4 := by
    simp only [statistics, hdegrees]
    decide +kernel
  obtain ⟨hcounts, haverage, -⟩ := Graph.statistics_of_joined SelfJoined.graph hids
  obtain ⟨hcomponents, hgreatest⟩ := hcounts ℚ
  refine ⟨hids, hcomponents.symm.trans hpieces, hmax ▸ hgreatest, ?_⟩
  have htwice : (4 : ℚ) = 2 * SelfJoined.graph.joined.ncard := hsum.symm.trans haverage
  have hcount : 4 = 2 * SelfJoined.graph.joined.ncard := by exact_mod_cast htwice
  omega

end CodeAtlas
