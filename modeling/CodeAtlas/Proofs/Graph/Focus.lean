import CodeAtlas.Graph.Filter
import CodeAtlas.Proofs.Text.Part
import Mathlib.Data.List.Nodup

/-!
# The part of a graph in focus

Nodes are picked through the edges at them, and edges through their ends, both by id alone. The
nodes that mention the text are kept with all their edges, so a second focusing finds the same.

* **`Graph.focused_around_mentions`**: the part in focus, its closure, and a second focusing.
-/

namespace CodeAtlas

/-- The text stands in the id, the name or the path of the node. -/
def Node.Mentions (n : Node) (focus : String) : Prop :=
  focus.toList <:+: n.id.toList ∨ focus.toList <:+: n.name.toList ∨ focus.toList <:+: n.path.toList

theorem Node.mentions_iff {n : Node} {focus : String} :
    n.mentions focus = true ↔ n.Mentions focus := by
  rw [mentions, Bool.or_eq_true, Bool.or_eq_true, Text.hasPart_iff, Text.hasPart_iff,
    Text.hasPart_iff, or_assoc, Mentions]

namespace Graph

def Adjoins (g : Graph) (a b : String) : Prop :=
  ∃ e ∈ g.edges, e.source = a ∧ e.target = b ∨ e.source = b ∧ e.target = a

/-- The id is that of a node that mentions the text, or an edge joins it to one. -/
def Around (g : Graph) (focus id : String) : Prop :=
  ∃ m ∈ g.nodes, m.Mentions focus ∧ (m.id = id ∨ g.Adjoins m.id id)

def Touches (g : Graph) (focus : String) (e : Edge) : Prop :=
  ∃ m ∈ g.nodes, m.Mentions focus ∧ (e.source = m.id ∨ e.target = m.id)

def Closed (g : Graph) : Prop := ∀ e ∈ g.edges, e.source ∈ g.ids ∧ e.target ∈ g.ids

variable {g : Graph} {focus id : String} {e : Edge}

theorem mem_mentioning :
    id ∈ g.mentioning focus ↔ ∃ m ∈ g.nodes, m.Mentions focus ∧ m.id = id := by
  simp only [mentioning, List.mem_map, List.mem_filter, Node.mentions_iff, and_assoc]

theorem touches_iff :
    g.Touches focus e ↔ e.source ∈ g.mentioning focus ∨ e.target ∈ g.mentioning focus := by
  rw [mem_mentioning, mem_mentioning]
  constructor
  · rintro ⟨m, hm, hfocus, hsource | htarget⟩
    · exact Or.inl ⟨m, hm, hfocus, hsource.symm⟩
    · exact Or.inr ⟨m, hm, hfocus, htarget.symm⟩
  · rintro (⟨m, hm, hfocus, hid⟩ | ⟨m, hm, hfocus, hid⟩)
    · exact ⟨m, hm, hfocus, Or.inl hid.symm⟩
    · exact ⟨m, hm, hfocus, Or.inr hid.symm⟩

theorem Touches.around (h : g.Touches focus e) (he : e ∈ g.edges) :
    g.Around focus e.source ∧ g.Around focus e.target := by
  obtain ⟨m, hm, hfocus, hsource | htarget⟩ := h
  · exact ⟨⟨m, hm, hfocus, Or.inl hsource.symm⟩,
      m, hm, hfocus, Or.inr ⟨e, he, Or.inl ⟨hsource, rfl⟩⟩⟩
  · exact ⟨⟨m, hm, hfocus, Or.inr ⟨e, he, Or.inr ⟨rfl, htarget⟩⟩⟩,
      m, hm, hfocus, Or.inl htarget.symm⟩

theorem around_iff : g.Around focus id ↔ id ∈ g.mentioning focus ∨
    ∃ e ∈ g.edges, g.Touches focus e ∧ (id = e.source ∨ id = e.target) := by
  constructor
  · rintro ⟨m, hm, hfocus, hid | ⟨e, he, ⟨hsource, rfl⟩ | ⟨rfl, htarget⟩⟩⟩
    · exact Or.inl (mem_mentioning.mpr ⟨m, hm, hfocus, hid⟩)
    · exact Or.inr ⟨e, he, ⟨m, hm, hfocus, Or.inl hsource⟩, Or.inr rfl⟩
    · exact Or.inr ⟨e, he, ⟨m, hm, hfocus, Or.inr htarget⟩, Or.inl rfl⟩
  · rintro (h | ⟨e, he, htouches, rfl | rfl⟩)
    · obtain ⟨m, hm, hfocus, hid⟩ := mem_mentioning.mp h
      exact ⟨m, hm, hfocus, Or.inl hid⟩
    · exact (htouches.around he).1
    · exact (htouches.around he).2

theorem focused_of_not (h : focus = "" ∨ ∀ n ∈ g.nodes, ¬ n.Mentions focus) :
    g.focused focus = g := by
  have hwhole : (focus.isEmpty || (g.mentioning focus).isEmpty) = true := by
    rw [Bool.or_eq_true, String.isEmpty_iff, List.isEmpty_iff, List.eq_nil_iff_forall_not_mem]
    refine h.imp_right fun hnone id hid => ?_
    obtain ⟨m, hm, hfocus, -⟩ := mem_mentioning.mp hid
    exact hnone m hm hfocus
  exact if_pos hwhole

open Classical in
theorem focused_of_mentions (hne : focus ≠ "") (h : ∃ n ∈ g.nodes, n.Mentions focus) :
    g.focused focus =
      { g with
        nodes := g.nodes.filter fun n => g.Around focus n.id
        edges := g.edges.filter fun e => g.Touches focus e } := by
  have hpart : (focus.isEmpty || (g.mentioning focus).isEmpty) ≠ true := by
    obtain ⟨n, hn, hfocus⟩ := h
    rw [Ne, Bool.or_eq_true, String.isEmpty_iff, List.isEmpty_iff, not_or]
    exact ⟨hne, List.ne_nil_of_mem (mem_mentioning.mpr ⟨n, hn, hfocus, rfl⟩)⟩
  have hedges : ∀ e : Edge, ((g.mentioning focus).contains e.source ||
      (g.mentioning focus).contains e.target) = decide (g.Touches focus e) := by
    intro e
    rw [Bool.eq_iff_iff, Bool.or_eq_true, List.contains_iff_mem, List.contains_iff_mem,
      decide_eq_true_iff, touches_iff]
  rw [focused, if_neg hpart]
  simp only [hedges]
  congr 1
  refine List.filter_congr fun n _ => ?_
  rw [Bool.eq_iff_iff, List.contains_iff_mem, decide_eq_true_iff, around_iff]
  simp [List.mem_flatMap, and_assoc]

section Again

variable {n : Node}

theorem mem_nodes_focused (hne : focus ≠ "") (h : ∃ n ∈ g.nodes, n.Mentions focus) :
    n ∈ (g.focused focus).nodes ↔ n ∈ g.nodes ∧ g.Around focus n.id := by
  rw [focused_of_mentions hne h]
  simp

theorem mem_edges_focused (hne : focus ≠ "") (h : ∃ n ∈ g.nodes, n.Mentions focus) :
    e ∈ (g.focused focus).edges ↔ e ∈ g.edges ∧ g.Touches focus e := by
  rw [focused_of_mentions hne h]
  simp

theorem mem_focused_of_mentions (hn : n ∈ g.nodes) (hfocus : n.Mentions focus) :
    n ∈ (g.focused focus).nodes := by
  by_cases hne : focus = ""
  · rwa [focused_of_not (Or.inl hne)]
  · exact (mem_nodes_focused hne ⟨n, hn, hfocus⟩).mpr ⟨hn, n, hn, hfocus, Or.inl rfl⟩

/-- A closed graph stays closed: a kept edge keeps both its ends. -/
theorem Closed.focused (hclosed : g.Closed) (focus : String) : (g.focused focus).Closed := by
  by_cases hwhole : focus = "" ∨ ∀ n ∈ g.nodes, ¬ n.Mentions focus
  · rwa [focused_of_not hwhole]
  · push Not at hwhole
    obtain ⟨hne, h⟩ := hwhole
    have hkept : ∀ id ∈ g.ids, g.Around focus id → id ∈ (g.focused focus).ids := by
      intro id hid haround
      obtain ⟨n, hn, rfl⟩ := List.mem_map.mp hid
      exact List.mem_map_of_mem ((mem_nodes_focused hne h).mpr ⟨hn, haround⟩)
    intro e he
    obtain ⟨he, htouches⟩ := (mem_edges_focused hne h).mp he
    exact ⟨hkept _ (hclosed e he).1 (htouches.around he).1,
      hkept _ (hclosed e he).2 (htouches.around he).2⟩

open Classical in
/-- What is left is in focus for the same reason as before. -/
theorem focused_focused (g : Graph) (focus : String) :
    (g.focused focus).focused focus = g.focused focus := by
  by_cases hwhole : focus = "" ∨ ∀ n ∈ g.nodes, ¬ n.Mentions focus
  · rw [focused_of_not hwhole, focused_of_not hwhole]
  · push Not at hwhole
    obtain ⟨hne, n, hn, hfocus⟩ := hwhole
    have hedge : ∀ e ∈ (g.focused focus).edges, (g.focused focus).Touches focus e := by
      intro e he
      obtain ⟨-, m, hm, hmentions, hend⟩ := (mem_edges_focused hne ⟨n, hn, hfocus⟩).mp he
      exact ⟨m, mem_focused_of_mentions hm hmentions, hmentions, hend⟩
    have hnode : ∀ n ∈ (g.focused focus).nodes, (g.focused focus).Around focus n.id := by
      intro a ha
      obtain ⟨-, m, hm, hmentions, hnear⟩ := (mem_nodes_focused hne ⟨n, hn, hfocus⟩).mp ha
      refine ⟨m, mem_focused_of_mentions hm hmentions, hmentions, hnear.imp_right ?_⟩
      rintro ⟨e, he, hends⟩
      have htouches : g.Touches focus e :=
        ⟨m, hm, hmentions, hends.imp (fun h => h.1) fun h => h.2⟩
      exact ⟨e, (mem_edges_focused hne ⟨n, hn, hfocus⟩).mpr ⟨he, htouches⟩, hends⟩
    rw [focused_of_mentions hne ⟨n, mem_focused_of_mentions hn hfocus, hfocus⟩]
    congr 1
    · exact List.filter_eq_self.mpr fun a ha => decide_eq_true (hnode a ha)
    · exact List.filter_eq_self.mpr fun e he => decide_eq_true (hedge e he)

/-- With distinct ids a node is kept for its own sake or for that of a neighbour. -/
theorem around_iff_of_nodup (hd : g.ids.Nodup) (hn : n ∈ g.nodes) :
    g.Around focus n.id ↔
      n.Mentions focus ∨ ∃ m ∈ g.nodes, m.Mentions focus ∧ g.Adjoins m.id n.id := by
  constructor
  · rintro ⟨m, hm, hfocus, hid | hadjoins⟩
    · rw [List.inj_on_of_nodup_map hd hm hn hid] at hfocus
      exact Or.inl hfocus
    · exact Or.inr ⟨m, hm, hfocus, hadjoins⟩
  · rintro (hfocus | ⟨m, hm, hfocus, hadjoins⟩)
    · exact ⟨n, hn, hfocus, Or.inl rfl⟩
    · exact ⟨m, hm, hfocus, Or.inr hadjoins⟩

end Again

open Classical in
/-- **The part of a graph in focus** has the nodes with the id of one that mentions the text or is
joined to such a one, and the edges at such ids. A closed graph stays closed, and a second focusing
changes nothing. -/
theorem focused_around_mentions (g : Graph) (focus : String) :
    ((focus = "" ∨ ∀ n ∈ g.nodes, ¬ n.Mentions focus) → g.focused focus = g) ∧
    (focus ≠ "" → (∃ n ∈ g.nodes, n.Mentions focus) →
      (g.focused focus).nodes = g.nodes.filter (fun n => g.Around focus n.id) ∧
      (g.focused focus).edges = g.edges.filter (fun e => g.Touches focus e) ∧
      (g.focused focus).metadata = g.metadata) ∧
    (g.ids.Nodup → ∀ n ∈ g.nodes, (g.Around focus n.id ↔
      n.Mentions focus ∨ ∃ m ∈ g.nodes, m.Mentions focus ∧ g.Adjoins m.id n.id)) ∧
    (g.Closed → (g.focused focus).Closed) ∧
    (g.focused focus).focused focus = g.focused focus := by
  refine ⟨focused_of_not, fun hne h => ?_, fun hd n hn => around_iff_of_nodup hd hn,
    fun hclosed => hclosed.focused focus, focused_focused g focus⟩
  rw [focused_of_mentions hne h]
  exact ⟨rfl, rfl, rfl⟩

def namedFile (id name : String) : Node := { id, kind := "file", name, path := name }

/-- A node that mentions the text `core`, one next to it and one further away. -/
def chained : Graph where
  nodes := [namedFile "a" "core", namedFile "b" "x", namedFile "c" "y"]
  edges := [Edge.between "a" "b" "imports", Edge.between "b" "c" "imports"]
  metadata := { generatedAt := "" }

theorem mentions_core (id : String) : (namedFile id "core").Mentions "core" :=
  Or.inr (Or.inl (List.infix_refl _))

theorem focused_around_mentions_chained :
    chained.ids.Nodup ∧ chained.Closed ∧ (chained.focused "core").Closed ∧
    namedFile "b" "x" ∈ (chained.focused "core").nodes ∧ ¬ (namedFile "b" "x").Mentions "core" ∧
    ∃ m ∈ chained.nodes, m.Mentions "core" ∧ chained.Adjoins m.id "b" := by
  obtain ⟨-, hpart, hnear, hclosed, -⟩ := chained.focused_around_mentions "core"
  have hd : chained.ids.Nodup := by decide
  have hends : chained.Closed := by
    unfold Closed
    decide
  have hcore : ∃ m ∈ chained.nodes, m.Mentions "core" ∧ chained.Adjoins m.id "b" :=
    ⟨namedFile "a" "core", List.mem_cons_self, mentions_core "a",
      Edge.between "a" "b" "imports", List.mem_cons_self, Or.inl ⟨rfl, rfl⟩⟩
  have hb : namedFile "b" "x" ∈ chained.nodes := List.mem_cons_of_mem _ List.mem_cons_self
  obtain ⟨hnodes, -, -⟩ := hpart (by decide) (hcore.imp fun m hm => ⟨hm.1, hm.2.1⟩)
  refine ⟨hd, hends, hclosed hends, ?_, ?_, hcore⟩
  · have hkept : chained.Around "core" (namedFile "b" "x").id :=
      (hnear hd _ hb).mpr (Or.inr hcore)
    rw [hnodes]
    exact List.mem_filter.mpr ⟨hb, by simpa using hkept⟩
  · rw [← Node.mentions_iff]
    decide

/-- Two nodes of one id, of which the first mentions the text `core`. -/
def namesakes : Graph where
  nodes := [namedFile "a" "core", namedFile "a" "x"]
  edges := []
  metadata := { generatedAt := "" }

/-- A node kept only for the id that it shares. -/
theorem focused_keeps_namesake :
    namedFile "a" "core" ∈ namesakes.nodes ∧ (namedFile "a" "core").Mentions "core" ∧
    namedFile "a" "x" ∈ (namesakes.focused "core").nodes ∧
    ¬ (namedFile "a" "x").Mentions "core" ∧ ∀ id, ¬ namesakes.Adjoins id "a" := by
  have hcore : namedFile "a" "core" ∈ namesakes.nodes := List.mem_cons_self
  refine ⟨hcore, mentions_core "a", ?_, ?_, ?_⟩
  · exact (mem_nodes_focused (by decide) ⟨_, hcore, mentions_core "a"⟩).mpr
      ⟨List.mem_cons_of_mem _ List.mem_cons_self, _, hcore, mentions_core "a", Or.inl rfl⟩
  · rw [← Node.mentions_iff]
    decide
  · rintro id ⟨e, he, -⟩
    exact absurd he List.not_mem_nil

end Graph

end CodeAtlas
