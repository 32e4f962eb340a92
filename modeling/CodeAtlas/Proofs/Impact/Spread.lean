import CodeAtlas.Impact.Spread
import Mathlib.Data.List.Induction
import Mathlib.Data.List.Nodup

/-!
# How far a change spreads

Usages are noted one by one, each in the entry of its file and tag. A change spreads level by level,
from each to the files that use the symbols by which it was reached.

* **`Change.mem_next`**: what an entry further away holds.
-/

namespace CodeAtlas

/-! ## Notes -/

theorem Affected.isOf_iff {a : Affected} {file tag : String} :
    a.isOf file tag = true ↔ a.file = file ∧ a.tag = tag := by
  simp [isOf]

def Affected.key (a : Affected) : String × String := (a.file, a.tag)

structure Note where
  symbol : String
  tag : String
  usage : Usage

def Note.isOf (n : Note) (file tag : String) : Bool := n.usage.file == file && n.tag == tag

def noteAll (depth : Nat) (notes : List Note) : List Affected :=
  notes.foldl (fun found n => noteUsage n.symbol depth n.tag found n.usage) []

theorem any_isOf_iff {found : List Affected} {file tag : String} :
    found.any (·.isOf file tag) = true ↔ (file, tag) ∈ found.map Affected.key := by
  simp [Affected.key, Affected.isOf_iff]

/-- One entry for each file and tag, with the usages noted under them and the first symbol. -/
structure Gathered (depth : Nat) (notes : List Note) (found : List Affected) : Prop where
  keys : (found.map Affected.key).Nodup
  depth : ∀ a ∈ found, a.depth = depth
  usages : ∀ a ∈ found, a.usages = (notes.filter (·.isOf a.file a.tag)).map (·.usage)
  symbol : ∀ a ∈ found, ∃ n, (notes.filter (·.isOf a.file a.tag)).head? = some n ∧
    a.symbol = n.symbol
  noted : ∀ n ∈ notes, (n.usage.file, n.tag) ∈ found.map Affected.key

namespace Gathered

variable {depth : Nat} {notes : List Note} {found : List Affected}

theorem none (depth : Nat) : Gathered depth [] [] := by
  constructor <;> simp

theorem isOf_self (n : Note) : n.isOf n.usage.file n.tag = true := by
  simp [Note.isOf]

theorem noteOld (h : Gathered depth notes found) (n : Note)
    (hkey : (n.usage.file, n.tag) ∈ found.map Affected.key) :
    Gathered depth (notes ++ [n]) (found.map fun a =>
      if a.isOf n.usage.file n.tag then { a with usages := a.usages ++ [n.usage] } else a) := by
  have hkeys : (found.map fun a =>
      if a.isOf n.usage.file n.tag then { a with usages := a.usages ++ [n.usage] } else a).map
        Affected.key = found.map Affected.key := by
    rw [List.map_map]
    refine List.map_congr_left fun a _ => ?_
    dsimp only [Function.comp_apply]
    split <;> rfl
  refine ⟨hkeys ▸ h.keys, fun b hb => ?_, fun b hb => ?_, fun b hb => ?_, fun m hm => ?_⟩
  · obtain ⟨a, ha, rfl⟩ := List.mem_map.mp hb
    have hdepth := h.depth a ha
    split <;> exact hdepth
  · obtain ⟨a, ha, rfl⟩ := List.mem_map.mp hb
    have husages := h.usages a ha
    by_cases hn : n.isOf a.file a.tag = true
    · have ha' : a.isOf n.usage.file n.tag = true := by
        simp only [Note.isOf, Bool.and_eq_true, beq_iff_eq] at hn
        exact Affected.isOf_iff.mpr ⟨hn.1.symm, hn.2.symm⟩
      simp [ha', List.filter_append, hn, husages]
    · have ha' : ¬ a.isOf n.usage.file n.tag = true := by
        intro hc
        obtain ⟨hfile, htag⟩ := Affected.isOf_iff.mp hc
        exact hn (by simp [Note.isOf, hfile, htag])
      simp [ha', List.filter_append, hn, husages]
  · obtain ⟨a, ha, rfl⟩ := List.mem_map.mp hb
    obtain ⟨m, hm, hsymbol⟩ := h.symbol a ha
    have hhead : ((notes ++ [n]).filter (·.isOf a.file a.tag)).head? = some m := by
      rw [List.filter_append, List.head?_append, hm]
      rfl
    refine ⟨m, ?_, ?_⟩
    · split <;> exact hhead
    · split <;> exact hsymbol
  · rw [hkeys]
    rcases List.mem_append.mp hm with hm | hm
    · exact h.noted m hm
    · obtain rfl := List.mem_singleton.mp hm
      exact hkey

theorem noteNew (h : Gathered depth notes found) (n : Note)
    (hkey : (n.usage.file, n.tag) ∉ found.map Affected.key) :
    Gathered depth (notes ++ [n])
      (found ++ [⟨n.symbol, n.usage.file, depth, n.tag, [n.usage]⟩]) := by
  -- no earlier note belongs into the new entry, and the new note into no earlier one
  have hnew : notes.filter (·.isOf n.usage.file n.tag) = [] := by
    refine List.filter_eq_nil_iff.mpr fun m hm hc => hkey ?_
    simp only [Note.isOf, Bool.and_eq_true, beq_iff_eq] at hc
    have hnoted := h.noted m hm
    rwa [hc.1, hc.2] at hnoted
  have hold : ∀ a ∈ found, ¬ n.isOf a.file a.tag = true := by
    intro a ha hc
    simp only [Note.isOf, Bool.and_eq_true, beq_iff_eq] at hc
    refine hkey (List.mem_map.mpr ⟨a, ha, ?_⟩)
    rw [Affected.key, hc.1, hc.2]
  refine ⟨?_, fun a ha => ?_, fun a ha => ?_, fun a ha => ?_, fun m hm => ?_⟩
  · rw [List.map_append, List.map_singleton]
    exact List.Nodup.append h.keys (List.nodup_singleton _) (by
      intro x hx hx'
      rw [List.mem_singleton.mp hx'] at hx
      exact hkey hx)
  · rcases List.mem_append.mp ha with ha | ha
    · exact h.depth a ha
    · obtain rfl := List.mem_singleton.mp ha
      rfl
  · rcases List.mem_append.mp ha with ha | ha
    · simp [List.filter_append, hold a ha, h.usages a ha]
    · obtain rfl := List.mem_singleton.mp ha
      simp [List.filter_append, hnew, isOf_self]
  · rcases List.mem_append.mp ha with ha | ha
    · obtain ⟨m, hm, hsymbol⟩ := h.symbol a ha
      refine ⟨m, ?_, hsymbol⟩
      rw [List.filter_append, List.head?_append, hm]
      rfl
    · obtain rfl := List.mem_singleton.mp ha
      exact ⟨n, by simp [List.filter_append, hnew, isOf_self], rfl⟩
  · rw [List.map_append, List.mem_append]
    rcases List.mem_append.mp hm with hm | hm
    · exact Or.inl (h.noted m hm)
    · obtain rfl := List.mem_singleton.mp hm
      exact Or.inr (List.mem_singleton_self _)

theorem note (h : Gathered depth notes found) (n : Note) :
    Gathered depth (notes ++ [n]) (noteUsage n.symbol depth n.tag found n.usage) := by
  unfold noteUsage
  split
  · rename_i hany
    exact h.noteOld n (any_isOf_iff.mp hany)
  · rename_i hany
    exact h.noteNew n fun hkey => hany (any_isOf_iff.mpr hkey)

/-- **The entries hold the notes.** -/
theorem ofNotes (depth : Nat) (notes : List Note) : Gathered depth notes (noteAll depth notes) := by
  unfold noteAll
  induction notes using List.reverseRecOn with
  | nil => exact none depth
  | append_singleton notes n ih =>
    rw [List.foldl_append]
    exact ih.note n

theorem exists_first (h : Gathered depth notes found) {a : Affected} (ha : a ∈ found) :
    ∃ n ∈ notes, n.usage.file = a.file ∧ n.tag = a.tag ∧ n.symbol = a.symbol ∧
      n.usage ∈ a.usages := by
  obtain ⟨n, hn, hsymbol⟩ := h.symbol a ha
  have hmem := List.mem_of_mem_head? hn
  obtain ⟨hnotes, hof⟩ := List.mem_filter.mp hmem
  simp only [Note.isOf, Bool.and_eq_true, beq_iff_eq] at hof
  refine ⟨n, hnotes, hof.1, hof.2, hsymbol.symm, ?_⟩
  rw [h.usages a ha]
  exact List.mem_map_of_mem hmem

theorem file_of_mem_usages (h : Gathered depth notes found) {a : Affected} (ha : a ∈ found)
    {u : Usage} (hu : u ∈ a.usages) : u.file = a.file := by
  rw [h.usages a ha] at hu
  obtain ⟨n, hn, rfl⟩ := List.mem_map.mp hu
  have hof := (List.mem_filter.mp hn).2
  simp only [Note.isOf, Bool.and_eq_true, beq_iff_eq] at hof
  exact hof.1

end Gathered

/-! ## One entry for each file -/

theorem onePerFile_subset (reached : List Affected) : onePerFile reached ⊆ reached := by
  induction reached with
  | nil => exact fun _ h => h
  | cons a rest ih =>
    intro b hb
    rcases List.mem_cons.mp hb with rfl | hb
    · exact List.mem_cons_self
    · exact List.mem_cons_of_mem _ (ih (List.mem_filter.mp hb).1)

/-! ## The levels of a change -/

def ReportedUse.affected (r : ReportedUse) : Affected := ⟨r.user, r.file, 1, r.relation, [r.usage]⟩

/-- What is known of a change: file and symbol, the usages of every symbol, and the uses
reported. -/
structure Change where
  usagesOf : String → List Usage
  root : String
  symbol : String
  direct : List Usage
  reported : List ReportedUse

namespace Change

/-- What is affected at a depth. -/
def level (c : Change) : Nat → List Affected
  | 0 => []
  | 1 => firstAffected c.symbol c.direct c.reported
  | d + 2 => spreadFrom c.usagesOf c.root (d + 2) (c.level (d + 1))

def affected (c : Change) : List Affected :=
  allAffected c.usagesOf c.root c.symbol c.direct c.reported

theorem affected_eq (c : Change) : c.affected = c.level 1 ++ c.level 2 ++ c.level 3 := rfl

theorem mem_affected {c : Change} {a : Affected} :
    a ∈ c.affected ↔ a ∈ c.level 1 ∨ a ∈ c.level 2 ∨ a ∈ c.level 3 := by
  rw [affected_eq, List.mem_append, List.mem_append, or_assoc]

variable (c : Change)

/-! ### Next to the change -/

theorem gathered_direct : Gathered 1 (c.direct.map fun u => ⟨c.symbol, u.kind, u⟩)
    (directlyAffected c.symbol c.direct) := by
  have hnotes := Gathered.ofNotes 1 (c.direct.map fun u => ⟨c.symbol, u.kind, u⟩)
  rwa [noteAll, List.foldl_map] at hnotes

/-- What the reported uses add to entries that are there. -/
structure Added (found : List Affected) (reported : List ReportedUse) (added : List Affected) :
    Prop where
  keys : ((found ++ added).map Affected.key).Nodup
  source : ∀ a ∈ added, ∃ r ∈ reported, a = r.affected
  noted : ∀ r ∈ reported, (r.file, r.relation) ∈ (found ++ added).map Affected.key

theorem exists_added {found : List Affected} (hfound : (found.map Affected.key).Nodup)
    (reported : List ReportedUse) :
    ∃ added, reported.foldl noteReported found = found ++ added ∧
      Added found reported added := by
  induction reported using List.reverseRecOn with
  | nil => exact ⟨[], by simp, by simpa using hfound, by simp, by simp⟩
  | append_singleton reported r ih =>
    obtain ⟨added, hfold, hadded⟩ := ih
    rw [List.foldl_append, hfold, List.foldl_cons, List.foldl_nil, noteReported]
    by_cases hkey : (r.file, r.relation) ∈ (found ++ added).map Affected.key
    · refine ⟨added, if_pos (any_isOf_iff.mpr hkey), hadded.keys, fun a ha => ?_, fun s hs => ?_⟩
      · obtain ⟨s, hs, rfl⟩ := hadded.source a ha
        exact ⟨s, List.mem_append_left _ hs, rfl⟩
      · rcases List.mem_append.mp hs with hs | hs
        · exact hadded.noted s hs
        · obtain rfl := List.mem_singleton.mp hs
          exact hkey
    · refine ⟨added ++ [r.affected], ?_, ?_, fun a ha => ?_, fun s hs => ?_⟩
      · rw [if_neg fun hany => hkey (any_isOf_iff.mp hany), List.append_assoc]
        rfl
      · rw [← List.append_assoc, List.map_append, List.map_singleton]
        refine List.Nodup.append hadded.keys (List.nodup_singleton _) ?_
        intro x hx hx'
        rw [List.mem_singleton.mp hx'] at hx
        exact hkey hx
      · rcases List.mem_append.mp ha with ha | ha
        · obtain ⟨s, hs, rfl⟩ := hadded.source a ha
          exact ⟨s, List.mem_append_left _ hs, rfl⟩
        · exact ⟨r, List.mem_append_right _ (List.mem_singleton_self r), List.mem_singleton.mp ha⟩
      · rw [← List.append_assoc, List.map_append, List.mem_append]
        rcases List.mem_append.mp hs with hs | hs
        · exact Or.inl (hadded.noted s hs)
        · obtain rfl := List.mem_singleton.mp hs
          exact Or.inr (List.mem_singleton_self _)

theorem exists_level_one : ∃ added, c.level 1 = directlyAffected c.symbol c.direct ++ added ∧
    Added (directlyAffected c.symbol c.direct) c.reported added :=
  exists_added c.gathered_direct.keys c.reported

variable {c} {a : Affected}

/-- An entry next to the change holds the usages of its file and kind, or is reported. -/
theorem mem_first (ha : a ∈ c.level 1) :
    (a.depth = 1 ∧ a.symbol = c.symbol ∧ a.usages ≠ [] ∧
      a.usages = c.direct.filter fun u => u.file == a.file && u.kind == a.tag) ∨
    ∃ r ∈ c.reported, a = r.affected := by
  obtain ⟨added, hlevel, hadded⟩ := c.exists_level_one
  rw [hlevel] at ha
  rcases List.mem_append.mp ha with ha | ha
  · obtain ⟨n, hn, -, -, hsymbol, hmem⟩ := c.gathered_direct.exists_first ha
    obtain ⟨u, -, rfl⟩ := List.mem_map.mp hn
    refine Or.inl ⟨c.gathered_direct.depth a ha, hsymbol.symm, List.ne_nil_of_mem hmem, ?_⟩
    rw [c.gathered_direct.usages a ha, List.filter_map, List.map_map]
    exact List.map_id _
  · exact Or.inr (hadded.source a ha)

theorem nodup_keys_first : ((c.level 1).map Affected.key).Nodup := by
  obtain ⟨added, hlevel, hadded⟩ := c.exists_level_one
  exact hlevel ▸ hadded.keys

theorem exists_of_reported {r : ReportedUse} (hr : r ∈ c.reported) :
    ∃ a ∈ c.level 1, a.file = r.file ∧ a.tag = r.relation := by
  obtain ⟨added, hlevel, hadded⟩ := c.exists_level_one
  obtain ⟨a, ha, hkey⟩ := List.mem_map.mp (hadded.noted r hr)
  exact ⟨a, hlevel ▸ ha, congrArg Prod.fst hkey, congrArg Prod.snd hkey⟩

/-! ### Further away -/

variable (c) in
def notesFrom (d : Nat) : List Note :=
  (onePerFile (c.level d)).flatMap fun b =>
    ((c.usagesOf b.symbol).filter fun u => u.file != c.root && u.file != b.file).map
      fun u => ⟨b.symbol, "", u⟩

variable (c) in
theorem gathered_next (d : Nat) : Gathered (d + 2) (c.notesFrom (d + 1)) (c.level (d + 2)) := by
  have hnotes := Gathered.ofNotes (d + 2) (c.notesFrom (d + 1))
  rw [noteAll, notesFrom, List.foldl_flatMap] at hnotes
  simp only [List.foldl_map] at hnotes
  exact hnotes

variable {d : Nat}

theorem mem_notesFrom {n : Note} (hn : n ∈ c.notesFrom d) :
    n.tag = "" ∧ n.usage.file ≠ c.root ∧
      ∃ b ∈ onePerFile (c.level d), n.symbol = b.symbol ∧ n.usage ∈ c.usagesOf b.symbol ∧
        n.usage.file ≠ b.file := by
  obtain ⟨b, hb, hn⟩ := List.mem_flatMap.mp hn
  obtain ⟨u, hu, rfl⟩ := List.mem_map.mp hn
  obtain ⟨hmem, hcond⟩ := List.mem_filter.mp hu
  simp only [Bool.and_eq_true, bne_iff_ne] at hcond
  exact ⟨rfl, hcond.1, b, hb, rfl, hmem, hcond.2⟩

/-- The usages noted of a file are those of each other file that the level goes on from. -/
theorem usages_notesFrom (d : Nat) {file : String} (hfile : file ≠ c.root) :
    ((c.notesFrom d).filter (·.isOf file "")).map (·.usage) =
      ((onePerFile (c.level d)).filter (·.file != file)).flatMap fun b =>
        (c.usagesOf b.symbol).filter (·.file == file) := by
  rw [notesFrom, List.filter_flatMap, List.map_flatMap]
  generalize onePerFile (c.level d) = frontier
  induction frontier with
  | nil => rfl
  | cons b frontier ih =>
    rw [List.flatMap_cons, ih, List.filter_cons]
    have hparts : ∀ us : List Usage, (((us.filter fun u => u.file != c.root && u.file != b.file).map
        fun u => (⟨b.symbol, "", u⟩ : Note)).filter (·.isOf file "")).map (·.usage) =
        if b.file = file then [] else us.filter (·.file == file) := by
      intro us
      rw [List.filter_map, List.map_map, List.filter_filter]
      have hid : ((·.usage) ∘ fun u => (⟨b.symbol, "", u⟩ : Note)) = id := rfl
      rw [hid, List.map_id]
      split_ifs with hb
      · refine List.filter_eq_nil_iff.mpr fun u _ hu => ?_
        simp [Note.isOf, hb] at hu
        exact hu.2.2 hu.1
      · refine List.filter_congr fun u _ => ?_
        by_cases hu : u.file = file
        · simp [Note.isOf, hu, hfile, Ne.symm hb]
        · simp [Note.isOf, hu]
    rw [hparts]
    by_cases hb : b.file = file
    · simp [hb]
    · simp [hb]

/-- An entry further away holds the usages of the symbols by which the other files of the level
before were reached. -/
theorem mem_next (ha : a ∈ c.level (d + 2)) :
    a.depth = d + 2 ∧ a.tag = "" ∧ a.file ≠ c.root ∧ a.usages ≠ [] ∧
      a.usages = ((onePerFile (c.level (d + 1))).filter (·.file != a.file)).flatMap
        fun b => (c.usagesOf b.symbol).filter (·.file == a.file) := by
  have hlevel := c.gathered_next d
  obtain ⟨n, hn, hfile, htag, -, hmem⟩ := hlevel.exists_first ha
  obtain ⟨hempty, hroot, -⟩ := mem_notesFrom hn
  have htag' : a.tag = "" := htag.symm.trans hempty
  have hroot' : a.file ≠ c.root := hfile ▸ hroot
  refine ⟨hlevel.depth a ha, htag', hroot', List.ne_nil_of_mem hmem, ?_⟩
  rw [hlevel.usages a ha, htag', usages_notesFrom (d + 1) hroot']

theorem exists_nearer (ha : a ∈ c.level (d + 2)) :
    ∃ b ∈ c.level (d + 1), b.file ≠ a.file ∧ b.symbol = a.symbol := by
  obtain ⟨n, hn, hfile, -, hsymbol, -⟩ := (c.gathered_next d).exists_first ha
  obtain ⟨-, -, b, hb, hnb, -, hne⟩ := mem_notesFrom hn
  exact ⟨b, onePerFile_subset _ hb, fun hc => hne (hfile.trans hc.symm), hnb.symm.trans hsymbol⟩

theorem nodup_files_next (d : Nat) : ((c.level (d + 2)).map (·.file)).Nodup := by
  have hkeys := (c.gathered_next d).keys
  have hfiles : (c.level (d + 2)).map Affected.key =
      ((c.level (d + 2)).map (·.file)).map fun file => (file, "") := by
    rw [List.map_map]
    refine List.map_congr_left fun a ha => ?_
    rw [Affected.key, (mem_next ha).2.1]
    rfl
  exact List.Nodup.of_map _ (hfiles ▸ hkeys)

theorem file_of_mem_usages (ha : a ∈ c.level d) {u : Usage} (hu : u ∈ a.usages) :
    u.file = a.file := by
  match d with
  | 0 => exact absurd ha List.not_mem_nil
  | 1 =>
    rcases mem_first ha with ⟨-, -, -, husages⟩ | ⟨r, -, rfl⟩
    · rw [husages] at hu
      have hof := (List.mem_filter.mp hu).2
      simp only [Bool.and_eq_true, beq_iff_eq] at hof
      exact hof.1
    · obtain rfl := List.mem_singleton.mp hu
      rfl
  | d + 2 => exact (c.gathered_next d).file_of_mem_usages ha hu

theorem depth_of_mem (ha : a ∈ c.level d) : a.depth = d := by
  match d with
  | 0 => exact absurd ha List.not_mem_nil
  | 1 =>
    rcases mem_first ha with ⟨hdepth, -⟩ | ⟨r, -, rfl⟩
    · exact hdepth
    · rfl
  | d + 2 => exact (mem_next ha).1

theorem usages_ne_nil (ha : a ∈ c.level d) : a.usages ≠ [] := by
  match d with
  | 0 => exact absurd ha List.not_mem_nil
  | 1 =>
    rcases mem_first ha with ⟨-, -, hne, -⟩ | ⟨r, -, rfl⟩
    · exact hne
    · exact List.cons_ne_nil _ _
  | d + 2 => exact (mem_next ha).2.2.2.1

theorem mem_level_depth (ha : a ∈ c.affected) :
    a ∈ c.level a.depth ∧ 1 ≤ a.depth ∧ a.depth ≤ 3 := by
  obtain ⟨d, hd, h⟩ : ∃ d, (1 ≤ d ∧ d ≤ 3) ∧ a ∈ c.level d := by
    rcases mem_affected.mp ha with h | h | h
    · exact ⟨1, by omega, h⟩
    · exact ⟨2, by omega, h⟩
    · exact ⟨3, by omega, h⟩
  obtain rfl := depth_of_mem h
  exact ⟨h, hd⟩

theorem filter_depth_affected (d : Nat) :
    c.affected.filter (·.depth == d) = if 1 ≤ d ∧ d ≤ 3 then c.level d else [] := by
  have hlevel : ∀ e, (c.level e).filter (·.depth == d) = if e = d then c.level d else [] := by
    intro e
    split_ifs with he
    · exact he ▸ List.filter_eq_self.mpr fun a ha => beq_iff_eq.mpr (depth_of_mem ha)
    · refine List.filter_eq_nil_iff.mpr fun a ha hc => he ?_
      exact (depth_of_mem ha).symm.trans (beq_iff_eq.mp hc)
  rw [affected_eq, List.filter_append, List.filter_append, hlevel, hlevel, hlevel]
  match d with
  | 0 => rfl
  | 1 => simp
  | 2 => simp
  | 3 => simp
  | d + 4 => simp

end Change

end CodeAtlas
