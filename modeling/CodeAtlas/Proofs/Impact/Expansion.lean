import CodeAtlas.Proofs.Graph.EdgeKey
import CodeAtlas.Proofs.Impact.Spread
import CodeAtlas.Proofs.Impact.Usage
import Mathlib.Logic.Function.Iterate

/-!
# The expansion as a loop

Entries are kept in one table under labels, and each new entry is queued. An errand is dropped if
its file was followed up at its depth before, or if it is at the greatest depth.

* **`Expansion.exists_done`**: the loop ends with the levels of the change.
-/

namespace CodeAtlas

/-- What waits to be followed up: a symbol, the file reached by it, and the depth. -/
structure Errand where
  symbol : String
  file : String
  depth : Nat

/-- An expansion in progress. -/
structure Expansion where
  entries : Table String Affected := []
  queue : List Errand := []
  /-- The files that were followed up, with the depth at which they were. -/
  visited : List (String × Nat) := []

def markOf (depth : Nat) (tag : String) : String :=
  if depth = 1 then tag else "depth" ++ natText depth

def labelOf (file : String) (depth : Nat) (tag : String) : String :=
  file ++ ":" ++ markOf depth tag

def greatestDepth : Nat := 3

namespace Expansion

def noteIn (label : String) (u : Usage) (entry : String × Affected) : String × Affected :=
  if entry.1 == label then (entry.1, { entry.2 with usages := entry.2.usages ++ [u] }) else entry

def note (symbol : String) (depth : Nat) (tag : String) (x : Expansion) (u : Usage) : Expansion :=
  if x.entries.has (labelOf u.file depth tag) then
    { x with entries := x.entries.map (noteIn (labelOf u.file depth tag) u) }
  else
    { x with
      entries := x.entries ++ [(labelOf u.file depth tag, ⟨symbol, u.file, depth, tag, [u]⟩)]
      queue := x.queue ++ [⟨symbol, u.file, depth⟩] }

def noteReport (x : Expansion) (r : ReportedUse) : Expansion :=
  if x.entries.has (labelOf r.file 1 r.relation) then x
  else
    { x with
      entries := x.entries ++ [(labelOf r.file 1 r.relation, r.affected)]
      queue := x.queue ++ [⟨r.user, r.file, 1⟩] }

def start (c : Change) : Expansion :=
  c.reported.foldl noteReport (c.direct.foldl (fun x u => note c.symbol 1 u.kind x u) {})

def step (c : Change) (x : Expansion) : Expansion :=
  match x.queue with
  | [] => x
  | errand :: rest =>
    if x.visited.contains (errand.file, errand.depth) || decide (greatestDepth ≤ errand.depth) then
      { x with queue := rest }
    else
      ((c.usagesOf errand.symbol).filter fun u => u.file != c.root && u.file != errand.file).foldl
        (fun x u => note errand.symbol (errand.depth + 1) "" x u)
        { x with queue := rest, visited := x.visited ++ [(errand.file, errand.depth)] }

def items (x : Expansion) : List Affected := x.entries.map (·.2)

end Expansion

/-! ## Labels -/

def relationNames : List String := ["CALLED_BY", "IMPORTED_BY"]

def marked : List (Nat × String) :=
  (usageKinds ++ relationNames).map (fun tag => (1, tag)) ++ [(2, ""), (3, "")]

/-- The usages and reports of a change are of the kinds that are looked for. -/
structure Change.Scanned (c : Change) : Prop where
  kinds : ∀ u ∈ c.direct, u.kind ∈ usageKinds
  relations : ∀ r ∈ c.reported, r.relation ∈ relationNames

theorem colon_append_inj {f g m n : String} (hm : ':' ∉ m.toList) (hn : ':' ∉ n.toList) :
    f ++ ":" ++ m = g ++ ":" ++ n ↔ f = g ∧ m = n := by
  have hcolon : ":".toList = [':'] := rfl
  rw [← String.toList_inj, ← String.toList_inj, ← String.toList_inj]
  simp only [String.toList_append, hcolon, List.append_assoc, List.singleton_append, char_cut]
  constructor
  · rintro (h | ⟨w, -, hw⟩ | ⟨w, -, hw⟩)
    · exact h
    · exact absurd (hw ▸ List.mem_append_right _ List.mem_cons_self) hm
    · exact absurd (hw ▸ List.mem_append_right _ List.mem_cons_self) hn
  · exact Or.inl

/-- **No two labels can be mistaken** for each other, whatever the names of files. -/
theorem labelOf_inj {f g : String} {x y : Nat × String} (hx : x ∈ marked) (hy : y ∈ marked) :
    labelOf f x.1 x.2 = labelOf g y.1 y.2 ↔ f = g ∧ x = y := by
  have hplain : ∀ x ∈ marked, ':' ∉ (markOf x.1 x.2).toList := by decide
  have hinj : ∀ x ∈ marked, ∀ y ∈ marked, markOf x.1 x.2 = markOf y.1 y.2 → x = y := by decide
  rw [labelOf, labelOf, colon_append_inj (hplain x hx) (hplain y hy)]
  exact and_congr_right fun _ => ⟨hinj x hx y hy, fun h => h ▸ rfl⟩

namespace Affected

def label (a : Affected) : String := labelOf a.file a.depth a.tag

def errand (a : Affected) : Errand := ⟨a.symbol, a.file, a.depth⟩

end Affected

namespace Expansion

def holding (entries : List Affected) (queue : List Errand) (visited : List (String × Nat)) :
    Expansion :=
  ⟨entries.map fun a => (a.label, a), queue, visited⟩

theorem has_holding {entries : List Affected} {label : String} :
    Table.has (entries.map fun a => (a.label, a)) label = true ↔
      ∃ a ∈ entries, a.label = label := by
  simp [Table.has]

/-- The entries found at a depth stand on top of those nearer to the change. -/
structure Stacked (depth : Nat) (nearer found : List Affected) : Prop where
  nearer : ∀ a ∈ nearer, a.depth < depth ∧ (a.depth, a.tag) ∈ marked
  found : ∀ a ∈ found, a.depth = depth ∧ (a.depth, a.tag) ∈ marked

namespace Stacked

variable {depth : Nat} {nearer found : List Affected} {file tag symbol : String} {a : Affected}

theorem label_ne (h : Stacked depth nearer found) (hmark : (depth, tag) ∈ marked)
    (ha : a ∈ nearer) : a.label ≠ labelOf file depth tag := by
  intro hlabel
  obtain ⟨hlt, hmarked⟩ := h.nearer a ha
  obtain ⟨-, heq⟩ := (labelOf_inj hmarked hmark).mp hlabel
  exact absurd (congrArg Prod.fst heq) (Nat.ne_of_lt hlt)

theorem label_eq_iff (h : Stacked depth nearer found) (hmark : (depth, tag) ∈ marked)
    (ha : a ∈ found) : a.label = labelOf file depth tag ↔ a.isOf file tag = true := by
  obtain ⟨hdepth, hmarked⟩ := h.found a ha
  rw [Affected.label, labelOf_inj hmarked hmark, Affected.isOf_iff, Prod.mk.injEq]
  simp [hdepth]

theorem has_label_iff (h : Stacked depth nearer found) (hmark : (depth, tag) ∈ marked)
    (file : String) :
    Table.has ((nearer ++ found).map fun a => (a.label, a)) (labelOf file depth tag) = true ↔
      found.any (·.isOf file tag) = true := by
  rw [has_holding, List.any_eq_true]
  constructor
  · rintro ⟨a, ha, hlabel⟩
    rcases List.mem_append.mp ha with ha | ha
    · exact absurd hlabel (h.label_ne hmark ha)
    · exact ⟨a, ha, (h.label_eq_iff hmark ha).mp hlabel⟩
  · rintro ⟨a, ha, hof⟩
    exact ⟨a, List.mem_append_right _ ha, (h.label_eq_iff hmark ha).mpr hof⟩

theorem noteUsage (h : Stacked depth nearer found) (hmark : (depth, tag) ∈ marked)
    (symbol : String) (u : Usage) :
    Stacked depth nearer (noteUsage symbol depth tag found u) := by
  refine ⟨h.nearer, fun a ha => ?_⟩
  unfold CodeAtlas.noteUsage at ha
  split at ha
  · obtain ⟨b, hb, rfl⟩ := List.mem_map.mp ha
    have hfound := h.found b hb
    split <;> exact hfound
  · rcases List.mem_append.mp ha with ha | ha
    · exact h.found a ha
    · obtain rfl := List.mem_singleton.mp ha
      exact ⟨rfl, hmark⟩

theorem note_holding (h : Stacked depth nearer found) (hmark : (depth, tag) ∈ marked)
    (symbol : String) (u : Usage) (rest : List Errand) (visited : List (String × Nat)) :
    note symbol depth tag
        (holding (nearer ++ found) (rest ++ found.map Affected.errand) visited) u =
      holding (nearer ++ CodeAtlas.noteUsage symbol depth tag found u)
        (rest ++ (CodeAtlas.noteUsage symbol depth tag found u).map Affected.errand) visited := by
  have hhas := h.has_label_iff hmark u.file
  unfold note CodeAtlas.noteUsage holding
  by_cases hany : found.any (·.isOf u.file tag) = true
  · have hnearer : nearer.map (noteIn (labelOf u.file depth tag) u ∘ fun a => (a.label, a)) =
        nearer.map fun a => (a.label, a) := by
      refine List.map_congr_left fun a ha => ?_
      exact if_neg fun hc => h.label_ne hmark ha (beq_iff_eq.mp hc)
    have hfound : found.map (noteIn (labelOf u.file depth tag) u ∘ fun a => (a.label, a)) =
        found.map ((fun a => (a.label, a)) ∘ fun a =>
          if a.isOf u.file tag then { a with usages := a.usages ++ [u] } else a) := by
      refine List.map_congr_left fun a ha => ?_
      dsimp only [Function.comp_apply, noteIn]
      by_cases hof : a.isOf u.file tag = true
      · rw [if_pos hof, if_pos (beq_iff_eq.mpr ((h.label_eq_iff hmark ha).mpr hof))]
        rfl
      · rw [if_neg hof, if_neg fun hc => hof ((h.label_eq_iff hmark ha).mp (beq_iff_eq.mp hc))]
    have herrands : found.map (Affected.errand ∘ fun a =>
        if a.isOf u.file tag then { a with usages := a.usages ++ [u] } else a) =
        found.map Affected.errand := by
      refine List.map_congr_left fun a _ => ?_
      dsimp only [Function.comp_apply]
      split <;> rfl
    rw [if_pos (hhas.mpr hany), if_pos hany]
    simp only [List.map_append, List.map_map]
    rw [hnearer, hfound, herrands]
  · rw [if_neg fun hc => hany (hhas.mp hc), if_neg hany]
    simp [Affected.errand, Affected.label]

theorem foldl_note (h : Stacked depth nearer found) (us : List Usage) (tag : Usage → String)
    (hmark : ∀ u ∈ us, (depth, tag u) ∈ marked) (symbol : String) (rest : List Errand)
    (visited : List (String × Nat)) :
    us.foldl (fun x u => note symbol depth (tag u) x u)
        (holding (nearer ++ found) (rest ++ found.map Affected.errand) visited) =
      holding (nearer ++ us.foldl (fun f u => CodeAtlas.noteUsage symbol depth (tag u) f u) found)
        (rest ++ (us.foldl (fun f u => CodeAtlas.noteUsage symbol depth (tag u) f u) found).map
          Affected.errand) visited ∧
    Stacked depth nearer
      (us.foldl (fun f u => CodeAtlas.noteUsage symbol depth (tag u) f u) found) := by
  induction us generalizing found with
  | nil => exact ⟨rfl, h⟩
  | cons u us ih =>
    have hu := hmark u List.mem_cons_self
    rw [List.foldl_cons, List.foldl_cons, h.note_holding hu]
    exact ih (h.noteUsage hu symbol u) fun v hv => hmark v (List.mem_cons_of_mem u hv)

theorem noteReport_holding (h : Stacked 1 [] found) {r : ReportedUse}
    (hmark : (1, r.relation) ∈ marked) :
    noteReport (holding found (found.map Affected.errand) []) r =
      holding (noteReported found r) ((noteReported found r).map Affected.errand) [] ∧
    Stacked 1 [] (noteReported found r) := by
  have hhas := h.has_label_iff hmark r.file
  rw [List.nil_append] at hhas
  unfold noteReport noteReported holding
  by_cases hany : found.any (·.isOf r.file r.relation) = true
  · rw [if_pos (hhas.mpr hany), if_pos hany]
    exact ⟨rfl, h⟩
  · rw [if_neg fun hc => hany (hhas.mp hc), if_neg hany]
    refine ⟨by simp [Affected.errand, Affected.label, ReportedUse.affected],
      h.nearer, fun a ha => ?_⟩
    rcases List.mem_append.mp ha with ha | ha
    · exact h.found a ha
    · obtain rfl := List.mem_singleton.mp ha
      exact ⟨rfl, hmark⟩

theorem foldl_noteReport (h : Stacked 1 [] found) {reported : List ReportedUse}
    (hmark : ∀ r ∈ reported, (1, r.relation) ∈ marked) :
    reported.foldl noteReport (holding found (found.map Affected.errand) []) =
      holding (reported.foldl noteReported found)
        ((reported.foldl noteReported found).map Affected.errand) [] ∧
    Stacked 1 [] (reported.foldl noteReported found) := by
  induction reported generalizing found with
  | nil => exact ⟨rfl, h⟩
  | cons r reported ih =>
    obtain ⟨hstep, hstacked⟩ := h.noteReport_holding (hmark r List.mem_cons_self)
    rw [List.foldl_cons, List.foldl_cons, hstep]
    exact ih hstacked fun s hs => hmark s (List.mem_cons_of_mem r hs)

end Stacked

/-! ## The loop -/

variable {c : Change}

theorem mem_marked_of_kind {kind : String} (h : kind ∈ usageKinds) : (1, kind) ∈ marked :=
  List.mem_append_left _ (List.mem_map.mpr ⟨kind, List.mem_append_left _ h, rfl⟩)

theorem mem_marked_of_relation {name : String} (h : name ∈ relationNames) : (1, name) ∈ marked :=
  List.mem_append_left _ (List.mem_map.mpr ⟨name, List.mem_append_right _ h, rfl⟩)

theorem start_eq (h : c.Scanned) :
    start c = holding (c.level 1) ((c.level 1).map Affected.errand) [] ∧
      Stacked 1 [] (c.level 1) := by
  have hempty : Stacked 1 [] [] :=
    ⟨fun a ha => absurd ha List.not_mem_nil, fun a ha => absurd ha List.not_mem_nil⟩
  obtain ⟨hdirect, hstacked⟩ := hempty.foldl_note c.direct (·.kind)
    (fun u hu => mem_marked_of_kind (h.kinds u hu)) c.symbol [] []
  obtain ⟨hreported, hlevel⟩ := hstacked.foldl_noteReport
    fun r hr => mem_marked_of_relation (h.relations r hr)
  have hstart : start c = c.reported.foldl noteReport
      (c.direct.foldl (fun x u => note c.symbol 1 u.kind x u)
        (holding ([] ++ []) ([] ++ [].map Affected.errand) [])) := rfl
  rw [hstart, hdirect]
  exact ⟨hreported, hlevel⟩

/-- What an entry adds to the next level when it is followed up. -/
def followOne (c : Change) (depth : Nat) (found : List Affected) (b : Affected) : List Affected :=
  ((c.usagesOf b.symbol).filter fun u => u.file != c.root && u.file != b.file).foldl
    (noteUsage b.symbol (depth + 1) "") found

/-- What the entries of a level add to the next, some files having been followed up. -/
def followAll (c : Change) (depth : Nat) (visited : List (String × Nat))
    (level found : List Affected) : List Affected :=
  ((onePerFile level).filter fun b => !visited.contains (b.file, depth)).foldl
    (followOne c depth) found

section Level

variable {depth : Nat} {nearer found level : List Affected} {visited : List (String × Nat)}
  {b : Affected}

theorem followAll_visited (h : visited.contains (b.file, depth) = true) :
    followAll c depth visited (b :: level) found = followAll c depth visited level found := by
  rw [followAll, onePerFile, List.filter_cons_of_neg (by rw [h]; exact Bool.false_ne_true),
    List.filter_filter, followAll]
  congr 1
  refine List.filter_congr fun a _ => ?_
  by_cases ha : a.file = b.file
  · rw [ha, h]
    rfl
  · rw [bne_iff_ne.mpr ha, Bool.and_true]

theorem followAll_new (h : ¬ visited.contains (b.file, depth) = true) :
    followAll c depth visited (b :: level) found =
      followAll c depth (visited ++ [(b.file, depth)]) level (followOne c depth found b) := by
  rw [followAll, onePerFile, List.filter_cons_of_pos (by simpa using h), List.foldl_cons,
    List.filter_filter, followAll]
  congr 1
  refine List.filter_congr fun a _ => ?_
  by_cases ha : a.file = b.file
  · simp [ha]
  · simp [ha]

theorem step_visited (hb : b.depth = depth) (h : visited.contains (b.file, depth) = true)
    (entries : List Affected) (rest : List Errand) :
    step c (holding entries (b.errand :: rest) visited) = holding entries rest visited := by
  have hdrop : (visited.contains (b.file, b.depth) || decide (greatestDepth ≤ b.depth)) = true := by
    rw [hb, h, Bool.true_or]
  exact if_pos hdrop

theorem step_new (hdepth : (depth + 1, "") ∈ marked) (hb : b.depth = depth)
    (h : ¬ visited.contains (b.file, depth) = true) (hstack : Stacked (depth + 1) nearer found)
    (rest : List Errand) :
    step c (holding (nearer ++ found) (b.errand :: (rest ++ found.map Affected.errand)) visited) =
      holding (nearer ++ followOne c depth found b)
        (rest ++ (followOne c depth found b).map Affected.errand)
        (visited ++ [(b.file, depth)]) ∧
    Stacked (depth + 1) nearer (followOne c depth found b) := by
  have hbound : ∀ x ∈ marked, x.1 ≤ greatestDepth := by decide
  have hnear : depth + 1 ≤ greatestDepth := hbound _ hdepth
  obtain ⟨hnote, hstack'⟩ := hstack.foldl_note
    ((c.usagesOf b.symbol).filter fun u => u.file != c.root && u.file != b.file) (fun _ => "")
    (fun _ _ => hdepth) b.symbol rest (visited ++ [(b.file, depth)])
  have hgo : ¬ (visited.contains (b.file, b.depth) || decide (greatestDepth ≤ b.depth)) = true := by
    rw [hb, Bool.or_eq_true, not_or]
    exact ⟨h, by rw [decide_eq_true_iff]; omega⟩
  refine ⟨?_, hstack'⟩
  subst hb
  exact (if_neg hgo).trans hnote

/-- **A level worked off**: each of its files is followed up once, by its first entry. -/
theorem steps_level (hdepth : (depth + 1, "") ∈ marked) (hlevel : ∀ b ∈ level, b.depth = depth)
    (h : Stacked (depth + 1) nearer found) (visited : List (String × Nat)) :
    ∃ visited', (step c)^[level.length]
        (holding (nearer ++ found) (level.map Affected.errand ++ found.map Affected.errand)
          visited) =
      holding (nearer ++ followAll c depth visited level found)
        ((followAll c depth visited level found).map Affected.errand) visited' ∧
      Stacked (depth + 1) nearer (followAll c depth visited level found) ∧
      ∀ x ∈ visited', x ∈ visited ∨ x.2 = depth := by
  induction level generalizing found visited with
  | nil => exact ⟨visited, rfl, h, fun x hx => Or.inl hx⟩
  | cons b level ih =>
    have hb := hlevel b List.mem_cons_self
    have hrest : ∀ b' ∈ level, b'.depth = depth := fun b' hb' =>
      hlevel b' (List.mem_cons_of_mem b hb')
    rw [List.length_cons, Function.iterate_succ_apply, List.map_cons, List.cons_append]
    by_cases hvisited : visited.contains (b.file, depth) = true
    · rw [step_visited hb hvisited, followAll_visited hvisited]
      exact ih hrest h visited
    · obtain ⟨hstep, hstack⟩ := step_new hdepth hb hvisited h (level.map Affected.errand)
      rw [hstep, followAll_new hvisited]
      obtain ⟨visited', hsteps, hstack', hmem⟩ := ih hrest hstack (visited ++ [(b.file, depth)])
      refine ⟨visited', hsteps, hstack', fun x hx => ?_⟩
      rcases hmem x hx with hx | hx
      · rcases List.mem_append.mp hx with hx | hx
        · exact Or.inl hx
        · exact Or.inr (by rw [List.mem_singleton.mp hx])
      · exact Or.inr hx

theorem steps_last (hlevel : ∀ b ∈ level, b.depth = greatestDepth) (entries : List Affected)
    (visited : List (String × Nat)) :
    (step c)^[level.length] (holding entries (level.map Affected.errand) visited) =
      holding entries [] visited := by
  induction level with
  | nil => rfl
  | cons b level ih =>
    have hb := hlevel b List.mem_cons_self
    have hdrop : (visited.contains (b.file, b.depth) || decide (greatestDepth ≤ b.depth)) =
        true := by
      rw [hb, Bool.or_eq_true]
      exact Or.inr (decide_eq_true (Nat.le_refl _))
    have hstep : step c (holding entries (b.errand :: level.map Affected.errand) visited) =
        holding entries (level.map Affected.errand) visited := if_pos hdrop
    rw [List.length_cons, Function.iterate_succ_apply, List.map_cons, hstep]
    exact ih fun b' hb' => hlevel b' (List.mem_cons_of_mem b hb')

theorem followAll_fresh (h : ∀ x ∈ visited, x.2 < depth) (level : List Affected) :
    followAll c depth visited level [] = spreadFrom c.usagesOf c.root (depth + 1) level := by
  have hall : ∀ b ∈ onePerFile level, (!visited.contains (b.file, depth)) = true := by
    intro b _
    rw [Bool.not_eq_true', ← Bool.not_eq_true]
    exact fun hc => Nat.lt_irrefl _ (h _ (List.contains_iff_mem.mp hc))
  rw [followAll, List.filter_eq_self.mpr hall]
  rfl

theorem steps_next (hdepth : (depth + 1, "") ∈ marked) (h : Stacked depth nearer level)
    (hvisited : ∀ x ∈ visited, x.2 < depth) :
    ∃ visited', (step c)^[level.length]
        (holding (nearer ++ level) (level.map Affected.errand) visited) =
      holding (nearer ++ level ++ spreadFrom c.usagesOf c.root (depth + 1) level)
        ((spreadFrom c.usagesOf c.root (depth + 1) level).map Affected.errand) visited' ∧
      Stacked (depth + 1) (nearer ++ level) (spreadFrom c.usagesOf c.root (depth + 1) level) ∧
      ∀ x ∈ visited', x.2 < depth + 1 := by
  have hstack : Stacked (depth + 1) (nearer ++ level) [] := by
    refine ⟨fun a ha => ?_, fun a ha => absurd ha List.not_mem_nil⟩
    rcases List.mem_append.mp ha with ha | ha
    · obtain ⟨hlt, hmark⟩ := h.nearer a ha
      exact ⟨by omega, hmark⟩
    · obtain ⟨heq, hmark⟩ := h.found a ha
      exact ⟨by omega, hmark⟩
  obtain ⟨visited', hsteps, hstack', hmem⟩ :=
    steps_level (c := c) hdepth (fun b hb => (h.found b hb).1) hstack visited
  rw [followAll_fresh hvisited, List.append_nil, List.map_nil, List.append_nil] at hsteps
  rw [followAll_fresh hvisited] at hstack'
  refine ⟨visited', hsteps, hstack', fun x hx => ?_⟩
  rcases hmem x hx with hx | hx
  · exact Nat.lt_succ_of_lt (hvisited x hx)
  · omega

end Level

/-- The loop ends with the levels of the change in its table. -/
theorem exists_done (h : c.Scanned) :
    ∃ n, ((step c)^[n] (start c)).queue = [] ∧ ((step c)^[n] (start c)).items = c.affected := by
  obtain ⟨hstart, hfirst⟩ := start_eq h
  have hnone : ∀ x ∈ ([] : List (String × Nat)), x.2 < 1 := fun x hx => absurd hx List.not_mem_nil
  obtain ⟨visited₁, hsecond, hstack₂, hvisited₁⟩ := steps_next (c := c) (by decide) hfirst hnone
  obtain ⟨visited₂, hthird, hstack₃, -⟩ := steps_next (c := c) (by decide) hstack₂ hvisited₁
  have hlast := steps_last (c := c) (fun b hb => (hstack₃.found b hb).1)
    ([] ++ c.level 1 ++ c.level 2 ++ c.level 3) visited₂
  refine ⟨(c.level 3).length + ((c.level 2).length + (c.level 1).length), ?_⟩
  have hdone : (step c)^[(c.level 3).length + ((c.level 2).length + (c.level 1).length)] (start c) =
      holding ([] ++ c.level 1 ++ c.level 2 ++ c.level 3) [] visited₂ := by
    rw [Function.iterate_add_apply, Function.iterate_add_apply, hstart]
    exact (congrArg _ ((congrArg _ hsecond).trans hthird)).trans hlast
  rw [hdone]
  refine ⟨rfl, ?_⟩
  rw [items, holding, List.map_map]
  exact List.map_id _

end Expansion

end CodeAtlas
