import CodeAtlas.Proofs.Impact.Rings

/-!
# Ids on the rings

An id on a ring joins depth, file and symbol with dashes. Entries are kept apart otherwise: by file
and kind of use next to the change, and by file further away.

* **`Workspace.ring_ids_distinct_iff`**: when all ids of a ripple are different.
-/

namespace CodeAtlas

/-! ## Ids of entries -/

namespace Affected

/-- Entries next to the change of one file and symbol, for different kinds of use. -/
structure UsesAgain (a b : Affected) : Prop where
  depths : a.depth = 1 ∧ b.depth = 1
  file : a.file = b.file
  symbol : a.symbol = b.symbol
  tag : a.tag ≠ b.tag

/-- The second file is the first with the beginning of its symbol, up to a dash. -/
structure RecutAs (a b : Affected) : Prop where
  depth : a.depth = b.depth
  cut : ∃ middle, b.file = a.file ++ "-" ++ middle ∧ a.symbol = middle ++ "-" ++ b.symbol

theorem RecutAs.length_lt {a b : Affected} (h : a.RecutAs b) : a.file.length < b.file.length := by
  have hdash : "-".length = 1 := rfl
  obtain ⟨middle, hfile, -⟩ := h.cut
  simp only [hfile, String.length_append, hdash]
  omega

def ringId (a : Affected) : String :=
  "ripple-" ++ intText a.depth ++ "-" ++ a.file ++ "-" ++ a.symbol

theorem toList_ringId (a : Affected) : a.ringId.toList =
    "ripple-".toList ++ ((intText a.depth).toList ++
      '-' :: (a.file.toList ++ '-' :: a.symbol.toList)) := by
  have hdash : "-".toList = ['-'] := rfl
  simp [ringId, hdash]

theorem recutAs_iff {a b : Affected} : a.RecutAs b ↔ a.depth = b.depth ∧
    ∃ w, b.file.toList = a.file.toList ++ '-' :: w ∧
      a.symbol.toList = w ++ '-' :: b.symbol.toList := by
  have hdash : "-".toList = ['-'] := rfl
  constructor
  · rintro ⟨hdepth, middle, hfile, hsymbol⟩
    exact ⟨hdepth, middle.toList, by simp [hfile, hdash], by simp [hsymbol, hdash]⟩
  · rintro ⟨hdepth, w, hfile, hsymbol⟩
    refine ⟨hdepth, String.ofList w, String.toList_inj.mp ?_, String.toList_inj.mp ?_⟩
    · simp [hfile, hdash]
    · simp [hsymbol, hdash]

/-- Ids agree just if depths do, and files and symbols make the same text. -/
theorem ringId_eq_iff {a b : Affected} (ha : a.depth ∈ [1, 2, 3]) (hb : b.depth ∈ [1, 2, 3]) :
    a.ringId = b.ringId ↔
      (a.depth = b.depth ∧ a.file = b.file ∧ a.symbol = b.symbol) ∨ a.RecutAs b ∨ b.RecutAs a := by
  have hplain : ∀ d ∈ [1, 2, 3], '-' ∉ (intText (d : Nat)).toList := by decide
  have hinj : ∀ d ∈ [1, 2, 3], ∀ e ∈ [1, 2, 3],
      (intText (d : Nat)).toList = (intText (e : Nat)).toList → d = e := by decide
  have hdepth : (intText a.depth).toList = (intText b.depth).toList ↔ a.depth = b.depth :=
    ⟨hinj _ ha _ hb, fun h => h ▸ rfl⟩
  rw [← String.toList_inj, toList_ringId, toList_ringId, List.append_cancel_left_eq,
    char_cut_first (hplain _ ha), hdepth, char_cut, recutAs_iff, recutAs_iff, String.toList_inj,
    String.toList_inj]
  have hno : ¬ ∃ w, (intText b.depth).toList = (intText a.depth).toList ++ '-' :: w ∧
      a.file.toList ++ '-' :: a.symbol.toList =
        w ++ '-' :: (b.file.toList ++ '-' :: b.symbol.toList) := by
    rintro ⟨w, hw, -⟩
    exact hplain _ hb (hw ▸ List.mem_append_right _ List.mem_cons_self)
  rw [or_iff_left hno, and_or_left, and_or_left, eq_comm (a := b.depth)]

end Affected

/-! ## Entries of a change -/

namespace Change.WellSpread

variable {c : Change} {items : List Affected} {a b : Affected}

theorem depth_cases (h : c.WellSpread items) (ha : a ∈ items) : a.depth = 1 ∨ 2 ≤ a.depth := by
  have hdepth := h.depth a ha
  simp only [List.mem_cons, List.not_mem_nil, or_false] at hdepth
  omega

theorem nodup (h : c.WellSpread items) : items.Nodup := by
  classical
  refine List.nodup_iff_count_le_one.mpr fun a => ?_
  by_cases ha : a ∈ items
  · -- an entry is among those of its own depth as often as among all
    have hcount : (items.filter (·.depth == a.depth)).count a = items.count a :=
      List.count_filter (beq_self_eq_true a.depth)
    rw [← hcount]
    rcases h.depth_cases ha with hone | hmore
    · exact List.nodup_iff_count_le_one.mp (hone ▸ h.firstOnce.of_map) a
    · exact List.nodup_iff_count_le_one.mp (h.furtherOnce a.depth hmore).of_map a
  · rw [List.count_eq_zero.mpr ha]
    exact Nat.zero_le 1

theorem tag_ne (h : c.WellSpread items) (ha : a ∈ items) (hb : b ∈ items)
    (hdepth : a.depth = b.depth) (hfile : a.file = b.file) (hne : a ≠ b) :
    a.depth = 1 ∧ a.tag ≠ b.tag := by
  have hmem : a ∈ items.filter (·.depth == a.depth) ∧ b ∈ items.filter (·.depth == a.depth) := by
    simp [ha, hb, hdepth]
  rcases h.depth_cases ha with hone | hmore
  · rw [hone] at hmem
    refine ⟨hone, fun htag => hne ?_⟩
    exact List.inj_on_of_nodup_map h.firstOnce hmem.1 hmem.2 (Prod.ext hfile htag)
  · have heq := List.inj_on_of_nodup_map (h.furtherOnce a.depth hmore) hmem.1 hmem.2 hfile
    exact absurd heq hne

/-- Two entries have one id just if they are uses of one symbol in one file, or cut the text at
another dash. -/
theorem ringId_eq_iff (h : c.WellSpread items) (ha : a ∈ items) (hb : b ∈ items) (hne : a ≠ b) :
    a.ringId = b.ringId ↔ a.UsesAgain b ∨ a.RecutAs b ∨ b.RecutAs a := by
  rw [Affected.ringId_eq_iff (h.depth a ha) (h.depth b hb)]
  refine or_congr_left ⟨?_, ?_⟩
  · rintro ⟨hdepth, hfile, hsymbol⟩
    obtain ⟨hone, htag⟩ := h.tag_ne ha hb hdepth hfile hne
    exact ⟨⟨hone, hdepth ▸ hone⟩, hfile, hsymbol, htag⟩
  · rintro ⟨⟨ha, hb⟩, hfile, hsymbol, -⟩
    exact ⟨ha.trans hb.symm, hfile, hsymbol⟩

theorem nodup_ringIds_iff (h : c.WellSpread items) (kept : Affected → Bool) :
    ((items.filter kept).map (·.ringId)).Nodup ↔
      ∀ a ∈ items, kept a = true → ∀ b ∈ items, kept b = true →
        ¬ a.UsesAgain b ∧ ¬ a.RecutAs b := by
  rw [List.nodup_map_iff_inj_on (h.nodup.filter kept)]
  simp only [List.mem_filter]
  constructor
  · intro hinj a ha hka b hb hkb
    have heq : a.UsesAgain b ∨ a.RecutAs b ∨ b.RecutAs a → a = b := by
      intro hc
      by_contra hne
      exact hne (hinj a ⟨ha, hka⟩ b ⟨hb, hkb⟩ ((h.ringId_eq_iff ha hb hne).mpr hc))
    refine ⟨fun huses => ?_, fun hcut => ?_⟩
    · exact huses.tag (congrArg Affected.tag (heq (Or.inl huses)))
    · have hlt := hcut.length_lt
      rw [heq (Or.inr (Or.inl hcut))] at hlt
      exact Nat.lt_irrefl _ hlt
  · rintro hapart a ⟨ha, hka⟩ b ⟨hb, hkb⟩ hid
    by_contra hne
    obtain ⟨huses, hcut⟩ := hapart a ha hka b hb hkb
    rcases (h.ringId_eq_iff ha hb hne).mp hid with hc | hc | hc
    · exact huses hc
    · exact hcut hc
    · exact (hapart b hb hkb a ha hka).2 hc

end Change.WellSpread

/-! ## Ids of a ripple -/

section Ripples

variable {K : Type} [Geometry K]

def Ripple.ids (r : Ripple K) : List String := (r.layers.flatMap (·.nodes)).map (·.id)

theorem ids_rippleOf_perm (o : RippleOptions K) (symbol file : String) (items : List Affected) :
    (rippleOf o (reportImpacts symbol file (rankImpacts symbol items))).ids.Perm
      ((items.filter fun a => o.draws (a.impact symbol)).map (·.ringId)) := by
  have hids := map_eq_of_shows (·.id) _
    (fun n i h => h.id) (shows_rippleOf o (reportImpacts symbol file (rankImpacts symbol items)))
  rw [Ripple.ids, hids]
  refine ((List.mergeSort_perm _ _).map _).trans ?_
  refine (((List.mergeSort_perm _ _).filter o.draws).map _).trans ?_
  rw [List.filter_map, List.map_map]
  exact List.Perm.refl _

end Ripples

namespace Workspace

variable {K : Type} [Geometry K] {w : Workspace} {repo : Path} {knowledge : KnowledgeSource}
  {symbol : String} {file : Option String} {before after : List Search}

/-- **The ids on the rings are all different** just if no file is drawn for two kinds of use of one
symbol and no text of file and symbol is cut at two dashes. -/
theorem ring_ids_distinct_iff {r : ImpactReport K}
    (h : Finds (w.impactOf K repo knowledge symbol file) before r after) :
    ∃ c : Change, c.IsOf w repo knowledge symbol r.file ∧ c.WellSpread c.affected ∧
      ∀ o : RippleOptions K,
        (rippleOf o r).ids.Perm
          ((c.affected.filter fun a => o.draws (a.impact symbol)).map (·.ringId)) ∧
        ((rippleOf o r).ids.Nodup ↔
          ∀ a ∈ c.affected, o.draws (a.impact symbol) = true →
            ∀ b ∈ c.affected, o.draws (b.impact symbol) = true →
              ¬ a.UsesAgain b ∧ ¬ a.RecutAs b) := by
  obtain ⟨c, hc, hr⟩ := exists_change h
  have hspread := hc.toScanned.wellSpread
  refine ⟨c, hc, hspread, fun o => ?_⟩
  have hperm := ids_rippleOf_perm o symbol r.file c.affected
  rw [← hr] at hperm
  exact ⟨hperm, hperm.nodup_iff.trans (hspread.nodup_ringIds_iff _)⟩

end Workspace

section Folders

open Workspace

theorem Workspace.ring_ids_distinct_trio : ∃ r after,
    Finds (Trio.folder.workspace.impactOf Computed PlainFolder.repo Trio.silence "f" (some "t.ts"))
      [] r after ∧ r.impacts.length = 9 ∧ ∀ o, (rippleOf o r).ids.Nodup := by
  obtain ⟨after, h⟩ := Trio.exists_finds
  obtain ⟨c, hc, -, hids⟩ := ring_ids_distinct_iff h
  have haffected : c.affected = (Trio.folder.change Trio.silence "f" "t.ts").affected :=
    (Trio.folder.isOf_change Trio.silence "f" "t.ts").affected_eq hc
  have hfiles : (c.affected.map fun a => (a.file, a.depth)).Nodup := by
    rw [haffected]
    decide +kernel
  have hplain : ∀ a ∈ c.affected, '-' ∉ a.file.toList := by
    rw [haffected]
    decide +kernel
  refine ⟨_, after, h, ?_, fun o => (hids o).2.mpr fun a ha _ b hb _ => ⟨fun huses => ?_, ?_⟩⟩
  · have hnine := congrArg List.length Trio.affected_eq
    rw [List.length_map] at hnine
    rw [reportImpacts, rankImpacts, List.length_mergeSort, List.length_map, hnine]
    rfl
  · have hdepth := huses.depths.1.trans huses.depths.2.symm
    have heq := List.inj_on_of_nodup_map hfiles ha hb (Prod.ext huses.file hdepth)
    exact huses.tag (congrArg Affected.tag heq)
  · rintro ⟨-, middle, hfile, -⟩
    refine hplain b hb ?_
    rw [hfile, String.toList_append, String.toList_append]
    exact List.mem_append_left _ (List.mem_append_right _ List.mem_cons_self)

namespace Twofold

/-- A file that imports a symbol and calls it. -/
def folder : PlainFolder where
  files := [("a.ts", .plain "import f\nf()")]

def options : RippleOptions Computed where
  minimumScore := .whole 10

theorem ringIds_eq : ((folder.change Trio.silence "f" "t.ts").affected.filter
    fun a => options.draws (a.impact "f")).map (·.ringId) =
      ["ripple-1-a.ts-f", "ripple-1-a.ts-f"] := by
  decide +kernel

end Twofold

/-- A file has two nodes with one id, for its import and for its call. -/
theorem Workspace.ring_id_given_twice : ∃ r after,
    Finds (Twofold.folder.workspace.impactOf Computed PlainFolder.repo Trio.silence "f"
      (some "t.ts")) [] r after ∧
    (rippleOf Twofold.options r).ids = ["ripple-1-a.ts-f", "ripple-1-a.ts-f"] := by
  have h : ∃ after, Finds (Twofold.folder.workspace.impactOf Computed PlainFolder.repo Trio.silence
      "f" (some "t.ts")) [] (reportImpacts "f" "t.ts" (rankImpacts "f"
        (Twofold.folder.change Trio.silence "f" "t.ts").affected)) after :=
    finds_impactOf (by decide) (finds_normalTarget (by decide))
      (Twofold.folder.isOf_change Trio.silence "f" "t.ts") rfl rfl (by decide)
  obtain ⟨after, h⟩ := h
  have hperm := ids_rippleOf_perm Twofold.options "f" "t.ts"
    (Twofold.folder.change Trio.silence "f" "t.ts").affected
  rw [Twofold.ringIds_eq] at hperm
  have hids : (rippleOf Twofold.options _).ids = List.replicate 2 "ripple-1-a.ts-f" :=
    List.perm_replicate.mp hperm
  exact ⟨_, after, h, hids⟩

end Folders

end CodeAtlas
