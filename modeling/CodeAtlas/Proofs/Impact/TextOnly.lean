import CodeAtlas.Proofs.Impact.Ranking
import CodeAtlas.Proofs.Impact.Scanning
import Mathlib.Data.List.Dedup

/-!
# The impact that the texts tell

From each file that uses the symbol the change goes on to all the others, and from these once more.
So if there are at least two, each is listed twice further away.

* **`Workspace.impacts_of_texts`**: the impacts of a change of which nothing is reported.
-/

namespace CodeAtlas

/-! ## The closed form -/

def usingFiles (target : String) (us : List Usage) : List String :=
  ((us.filter (·.file != target)).map (·.file)).dedup

def usingGroups (target : String) (us : List Usage) : List (String × String) :=
  ((us.filter (·.file != target)).map fun u => (u.file, u.kind)).dedup

def usagesIn (us : List Usage) (file : String) : List Usage := us.filter (·.file == file)

def groupEntry (symbol : String) (us : List Usage) (group : String × String) : Affected where
  symbol := symbol
  file := group.1
  depth := 1
  tag := group.2
  usages := us.filter fun u => u.file == group.1 && u.kind == group.2

def fileEntry (symbol : String) (us : List Usage) (others depth : ℕ) (file : String) :
    Affected where
  symbol := symbol
  file := file
  depth := depth
  tag := ""
  usages := (List.replicate others (usagesIn us file)).flatten

def furtherSpread (symbol target : String) (us : List Usage) (depth : ℕ) : List Affected :=
  if 2 ≤ (usingFiles target us).length then
    (usingFiles target us).map
      (fileEntry symbol us ((usingFiles target us).length - 1) depth)
  else []

def textSpread (symbol target : String) (us : List Usage) : List Affected :=
  (usingGroups target us).map (groupEntry symbol us) ++ furtherSpread symbol target us 2 ++
    furtherSpread symbol target us 3

/-- How far the change reaches: not at all, to one file, or from files to one another. -/
def textDepth (target : String) (us : List Usage) : ℕ :=
  match (usingFiles target us).length with
  | 0 => 0
  | 1 => 1
  | _ + 2 => 3

variable {reached : List Affected} {files : List String} {file : String} {us : List Usage}

theorem mem_usingFiles {target file : String} :
    file ∈ usingFiles target us ↔ file ≠ target ∧ ∃ u ∈ us, u.file = file := by
  simp only [usingFiles, List.mem_dedup, List.mem_map, List.mem_filter, bne_iff_ne]
  constructor
  · rintro ⟨u, ⟨hu, hne⟩, rfl⟩
    exact ⟨hne, u, hu, rfl⟩
  · rintro ⟨hne, u, hu, rfl⟩
    exact ⟨u, ⟨hu, hne⟩, rfl⟩

theorem length_usages_fileEntry (symbol : String) (us : List Usage) (others depth : ℕ)
    (file : String) : (fileEntry symbol us others depth file).usages.length =
      others * us.countP (·.file == file) := by
  rw [fileEntry, List.length_flatten, List.map_replicate, usagesIn, ← List.countP_eq_length_filter]
  simp

/-! ## Notes with one symbol -/

/-- **What notes with one symbol are gathered into**: an entry for each file and tag. -/
theorem Gathered.perm {depth : ℕ} {notes : List Note} {found : List Affected} {symbol : String}
    (h : Gathered depth notes found) (hsymbol : ∀ n ∈ notes, n.symbol = symbol) :
    found.Perm (((notes.map fun n => (n.usage.file, n.tag)).dedup).map fun key =>
      ⟨symbol, key.1, depth, key.2, (notes.filter (·.isOf key.1 key.2)).map (·.usage)⟩) := by
  have hentry : found = (found.map Affected.key).map fun key =>
      ⟨symbol, key.1, depth, key.2, (notes.filter (·.isOf key.1 key.2)).map (·.usage)⟩ := by
    rw [List.map_map]
    conv_lhs => rw [← List.map_id found]
    refine List.map_congr_left fun a ha => ?_
    obtain ⟨n, hn, -, -, hof, -⟩ := h.exists_first ha
    have hsym : a.symbol = symbol := hof.symm.trans (hsymbol n hn)
    have hdepth := h.depth a ha
    have husages := h.usages a ha
    cases a
    simp_all [Affected.key]
  have hkeys : (found.map Affected.key).Perm
      (notes.map fun n => (n.usage.file, n.tag)).dedup := by
    refine (List.perm_ext_iff_of_nodup h.keys (List.nodup_dedup _)).mpr fun key => ?_
    rw [List.mem_dedup]
    constructor
    · intro hkey
      obtain ⟨a, ha, rfl⟩ := List.mem_map.mp hkey
      obtain ⟨n, hn, hfile, htag, -⟩ := h.exists_first ha
      exact List.mem_map.mpr ⟨n, hn, Prod.ext hfile htag⟩
    · intro hkey
      obtain ⟨n, hn, rfl⟩ := List.mem_map.mp hkey
      exact h.noted n hn
  rw [hentry]
  exact hkeys.map _

/-! ## One entry for each file -/

theorem mem_files_onePerFile :
    file ∈ (onePerFile reached).map (·.file) ↔ file ∈ reached.map (·.file) := by
  induction reached with
  | nil => rfl
  | cons a rest ih =>
    by_cases hfile : file = a.file
    · simp [onePerFile, hfile]
    · rw [onePerFile, List.map_cons, List.mem_cons, List.map_cons, List.mem_cons, ← ih]
      simp only [hfile, false_or, List.mem_map, List.mem_filter, bne_iff_ne]
      constructor
      · rintro ⟨b, ⟨hb, -⟩, hof⟩
        exact ⟨b, hb, hof⟩
      · rintro ⟨b, hb, rfl⟩
        exact ⟨b, ⟨hb, hfile⟩, rfl⟩

theorem nodup_files_onePerFile (reached : List Affected) :
    ((onePerFile reached).map (·.file)).Nodup := by
  induction reached with
  | nil => exact List.nodup_nil
  | cons a rest ih =>
    rw [onePerFile, List.map_cons, List.nodup_cons]
    refine ⟨fun hmem => ?_, ?_⟩
    · obtain ⟨b, hb, hfile⟩ := List.mem_map.mp hmem
      exact bne_iff_ne.mp (List.mem_filter.mp hb).2 hfile
    · exact ih.sublist (List.filter_sublist.map _)

/-- **The files that a level goes on from** are its files, each once. -/
theorem files_onePerFile (hnodup : files.Nodup)
    (h : ∀ file, file ∈ reached.map (·.file) ↔ file ∈ files) :
    ((onePerFile reached).map (·.file)).Perm files :=
  (List.perm_ext_iff_of_nodup (nodup_files_onePerFile reached) hnodup).mpr fun file =>
    mem_files_onePerFile.trans (h file)

theorem length_filter_others (hnodup : files.Nodup) (hfile : file ∈ files) :
    (files.filter (· != file)).length = files.length - 1 := by
  rw [← hnodup.erase_eq_filter, List.length_erase_of_mem hfile]

/-! ## The levels -/

namespace Change

variable {c : Change} {us : List Usage}

/-- A change of which only the usages of its symbol are known. -/
structure TextOnly (c : Change) (us : List Usage) : Prop where
  reported : c.reported = []
  usagesOf : c.usagesOf c.symbol = us
  direct : c.direct = us.filter (·.file != c.root)

theorem TextOnly.symbol_eq (h : c.TextOnly us) {d : ℕ} {a : Affected} (ha : a ∈ c.level d) :
    a.symbol = c.symbol := by
  have hmem := symbol_mem_tracked ha
  rw [tracked, h.reported, List.map_nil] at hmem
  exact List.mem_singleton.mp hmem

/-- **The entries next to the change.** -/
theorem TextOnly.first_perm (h : c.TextOnly us) :
    (c.level 1).Perm ((usingGroups c.root us).map (groupEntry c.symbol us)) := by
  have hlevel : c.level 1 = directlyAffected c.symbol c.direct := by
    rw [level, firstAffected, h.reported]
    rfl
  have hsymbol : ∀ n ∈ c.direct.map fun u => (⟨c.symbol, u.kind, u⟩ : Note),
      n.symbol = c.symbol := by
    intro n hn
    obtain ⟨u, -, rfl⟩ := List.mem_map.mp hn
    rfl
  have hperm := c.gathered_direct.perm hsymbol
  rw [List.map_map, h.direct] at hperm
  rw [hlevel, h.direct]
  refine hperm.trans (.of_eq (List.map_congr_left fun key hkey => ?_))
  have hroot : key.1 ≠ c.root := by
    obtain ⟨u, hu, rfl⟩ := List.mem_map.mp (List.mem_dedup.mp hkey)
    exact bne_iff_ne.mp (List.mem_filter.mp hu).2
  have hid : ((·.usage) ∘ fun u => (⟨c.symbol, u.kind, u⟩ : Note)) = id := rfl
  rw [groupEntry, List.filter_map, List.map_map, hid, List.map_id, List.filter_filter]
  congr 1
  refine List.filter_congr fun u _ => ?_
  by_cases hu : u.file = key.1
  · simp [Note.isOf, hu, hroot]
  · simp [Note.isOf, hu]

/-- What an entry further away holds: the usages in its file, once for each other file. -/
theorem TextOnly.usages_next (h : c.TextOnly us) {d : ℕ}
    (hfiles : ∀ file, file ∈ (c.level (d + 1)).map (·.file) ↔ file ∈ usingFiles c.root us)
    {file : String} (hfile : file ∈ usingFiles c.root us) :
    ((c.notesFrom (d + 1)).filter (·.isOf file "")).map (·.usage) =
      (List.replicate ((usingFiles c.root us).length - 1) (usagesIn us file)).flatten := by
  have hnodup : (usingFiles c.root us).Nodup := List.nodup_dedup _
  have hothers : ((onePerFile (c.level (d + 1))).filter (·.file != file)).length =
      (usingFiles c.root us).length - 1 := by
    have hperm := (files_onePerFile hnodup hfiles).filter (· != file)
    rw [← length_filter_others hnodup hfile, ← hperm.length_eq, List.filter_map, List.length_map]
    rfl
  rw [usages_notesFrom (d + 1) (mem_usingFiles.mp hfile).1, ← hothers]
  have hsame : ∀ b ∈ (onePerFile (c.level (d + 1))).filter (·.file != file),
      (c.usagesOf b.symbol).filter (·.file == file) = usagesIn us file := by
    intro b hb
    rw [h.symbol_eq (onePerFile_subset _ (List.mem_filter.mp hb).1), h.usagesOf, usagesIn]
  rw [List.flatMap_congr hsame, List.flatMap_def, List.map_const']

theorem TextOnly.mem_keys_next (h : c.TextOnly us) {d : ℕ}
    (hfiles : ∀ file, file ∈ (c.level (d + 1)).map (·.file) ↔ file ∈ usingFiles c.root us)
    {key : String × String} :
    key ∈ (c.notesFrom (d + 1)).map (fun n => (n.usage.file, n.tag)) ↔
      2 ≤ (usingFiles c.root us).length ∧ key ∈ (usingFiles c.root us).map (·, "") := by
  have hnodup : (usingFiles c.root us).Nodup := List.nodup_dedup _
  constructor
  · intro hkey
    obtain ⟨n, hn, rfl⟩ := List.mem_map.mp hkey
    obtain ⟨htag, hroot, b, hb, -, hu, hne⟩ := mem_notesFrom hn
    have hlevel := onePerFile_subset _ hb
    rw [h.symbol_eq hlevel, h.usagesOf] at hu
    have hfile : n.usage.file ∈ usingFiles c.root us := mem_usingFiles.mpr ⟨hroot, _, hu, rfl⟩
    have hother : b.file ∈ (usingFiles c.root us).filter (· != n.usage.file) :=
      List.mem_filter.mpr ⟨(hfiles b.file).mp (List.mem_map_of_mem hlevel),
        bne_iff_ne.mpr (Ne.symm hne)⟩
    have hpos := List.length_pos_of_mem hother
    rw [length_filter_others hnodup hfile] at hpos
    exact ⟨by omega, List.mem_map.mpr ⟨_, hfile, by rw [htag]⟩⟩
  · rintro ⟨htwo, hkey⟩
    obtain ⟨file, hfile, rfl⟩ := List.mem_map.mp hkey
    obtain ⟨hroot, u, hu, rfl⟩ := mem_usingFiles.mp hfile
    have hpos : 0 < ((usingFiles c.root us).filter (· != u.file)).length := by
      rw [length_filter_others hnodup hfile]
      omega
    obtain ⟨other, hother⟩ := List.exists_mem_of_length_pos hpos
    obtain ⟨hother, hne⟩ := List.mem_filter.mp hother
    obtain ⟨b, hb, rfl⟩ := List.mem_map.mp
      ((files_onePerFile hnodup hfiles).mem_iff.mpr hother)
    have hb' := h.symbol_eq (onePerFile_subset _ hb)
    refine List.mem_map.mpr ⟨⟨b.symbol, "", u⟩, List.mem_flatMap.mpr ⟨b, hb, ?_⟩, rfl⟩
    refine List.mem_map.mpr ⟨u, List.mem_filter.mpr ⟨?_, ?_⟩, rfl⟩
    · rw [hb', h.usagesOf]
      exact hu
    · rw [Bool.and_eq_true, bne_iff_ne, bne_iff_ne]
      exact ⟨hroot, Ne.symm (bne_iff_ne.mp hne)⟩

/-- **The entries one step further**, if a level has all the files that use the symbol. -/
theorem TextOnly.next_perm (h : c.TextOnly us) {d : ℕ}
    (hfiles : ∀ file, file ∈ (c.level (d + 1)).map (·.file) ↔ file ∈ usingFiles c.root us) :
    (c.level (d + 2)).Perm (furtherSpread c.symbol c.root us (d + 2)) := by
  have hnodup : (usingFiles c.root us).Nodup := List.nodup_dedup _
  have hsymbol : ∀ n ∈ c.notesFrom (d + 1), n.symbol = c.symbol := by
    intro n hn
    obtain ⟨-, -, b, hb, hof, -⟩ := mem_notesFrom hn
    exact hof.trans (h.symbol_eq (onePerFile_subset _ hb))
  have hperm := (c.gathered_next d).perm hsymbol
  have hkeys : ((c.notesFrom (d + 1)).map fun n => (n.usage.file, n.tag)).dedup.Perm
      (if 2 ≤ (usingFiles c.root us).length then (usingFiles c.root us).map (·, "") else []) := by
    refine (List.perm_ext_iff_of_nodup (List.nodup_dedup _) ?_).mpr fun key => ?_
    · split_ifs
      · exact hnodup.map fun a b hab => congrArg Prod.fst hab
      · exact List.nodup_nil
    · rw [List.mem_dedup, h.mem_keys_next hfiles]
      split_ifs with htwo
      · exact and_iff_right htwo
      · simp [htwo]
  refine hperm.trans ((hkeys.map _).trans (.of_eq ?_))
  unfold furtherSpread
  split_ifs
  · rw [List.map_map]
    refine List.map_congr_left fun file hfile => ?_
    rw [fileEntry, ← h.usages_next hfiles hfile]
    rfl
  · rfl

/-! ## All levels -/

theorem files_furtherSpread {symbol target : String} {depth : ℕ}
    (h : 2 ≤ (usingFiles target us).length) :
    (furtherSpread symbol target us depth).map (·.file) = usingFiles target us := by
  rw [furtherSpread, if_pos h, List.map_map]
  exact List.map_id _

/-- **All that is reached**, in closed form. -/
theorem TextOnly.affected_perm (h : c.TextOnly us) :
    c.affected.Perm (textSpread c.symbol c.root us) := by
  have hfirst : ∀ file, file ∈ (c.level 1).map (·.file) ↔ file ∈ usingFiles c.root us := by
    intro file
    rw [(h.first_perm.map _).mem_iff]
    simp [usingGroups, usingFiles, groupEntry]
  have hsecond := h.next_perm hfirst
  have hthird : (c.level 3).Perm (furtherSpread c.symbol c.root us 3) := by
    by_cases htwo : 2 ≤ (usingFiles c.root us).length
    · refine h.next_perm fun file => ?_
      rw [(hsecond.map _).mem_iff, files_furtherSpread htwo]
    · -- one file has no other to go on to
      have hnone : c.level 2 = [] := by
        rwa [furtherSpread, if_neg htwo, List.perm_nil] at hsecond
      rw [level, hnone, furtherSpread, if_neg htwo]
      rfl
  rw [c.affected_eq, textSpread]
  exact (h.first_perm.append hsecond).append hthird

end Change

/-! ## How far it reaches -/

section Depth

variable {symbol target : String} {us : List Usage}

theorem mem_furtherSpread {depth : ℕ} {a : Affected}
    (ha : a ∈ furtherSpread symbol target us depth) : a.depth = depth ∧
      2 ≤ (usingFiles target us).length ∧
      a.usages.length = ((usingFiles target us).length - 1) * us.countP (·.file == a.file) := by
  unfold furtherSpread at ha
  split_ifs at ha with htwo
  · obtain ⟨file, -, rfl⟩ := List.mem_map.mp ha
    exact ⟨rfl, htwo, length_usages_fileEntry ..⟩
  · exact absurd ha List.not_mem_nil

theorem fst_mem_usingFiles {group : String × String} (h : group ∈ usingGroups target us) :
    group.1 ∈ usingFiles target us := by
  obtain ⟨u, hu, rfl⟩ := List.mem_map.mp (List.mem_dedup.mp h)
  exact List.mem_dedup.mpr (List.mem_map_of_mem hu)

theorem depth_le_textDepth {a : Affected} (ha : a ∈ textSpread symbol target us) :
    a.depth ≤ textDepth target us := by
  have hfurther : ∀ {depth : ℕ}, depth ≤ 3 → a ∈ furtherSpread symbol target us depth →
      a.depth ≤ textDepth target us := by
    intro depth hdepth ha
    obtain ⟨rfl, htwo, -⟩ := mem_furtherSpread ha
    obtain ⟨n, hn⟩ := Nat.exists_eq_add_of_le' htwo
    rw [textDepth, hn]
    exact hdepth
  rcases List.mem_append.mp ha with ha | ha
  · rcases List.mem_append.mp ha with ha | ha
    · obtain ⟨group, hgroup, rfl⟩ := List.mem_map.mp ha
      have hpos := List.length_pos_of_mem (fst_mem_usingFiles hgroup)
      change 1 ≤ textDepth target us
      unfold textDepth
      split <;> omega
    · exact hfurther (by omega) ha
  · exact hfurther (by omega) ha

variable (symbol target us) in
theorem exists_depth_eq_textDepth :
    textDepth target us = 0 ∨ ∃ a ∈ textSpread symbol target us, a.depth = textDepth target us := by
  match hlength : (usingFiles target us).length with
  | 0 => exact Or.inl (by rw [textDepth, hlength])
  | 1 =>
    obtain ⟨file, hfile⟩ :=
      List.exists_mem_of_length_pos (by omega : 0 < (usingFiles target us).length)
    obtain ⟨u, hu, -⟩ := List.mem_map.mp (List.mem_dedup.mp hfile)
    refine Or.inr ⟨groupEntry symbol us (u.file, u.kind), ?_, by rw [textDepth, hlength]; rfl⟩
    refine List.mem_append_left _ (List.mem_append_left _ (List.mem_map_of_mem ?_))
    exact List.mem_dedup.mpr (List.mem_map_of_mem hu)
  | n + 2 =>
    obtain ⟨file, hfile⟩ :=
      List.exists_mem_of_length_pos (by omega : 0 < (usingFiles target us).length)
    refine Or.inr ⟨fileEntry symbol us ((usingFiles target us).length - 1) 3 file, ?_,
      by rw [textDepth, hlength]; rfl⟩
    refine List.mem_append_right _ ?_
    rw [furtherSpread, if_pos (by omega)]
    exact List.mem_map_of_mem hfile

end Depth

/-! ## The report -/

/-- The report lists what the usages of the symbol tell. -/
structure ImpactReport.TellsTexts {K : Type} [Arith K] (r : ImpactReport K)
    (symbol target : String) (us : List Usage) : Prop where
  about : r.symbol = symbol ∧ r.file = target
  impacts : r.impacts.Perm ((textSpread symbol target us).map (·.impact symbol))
  /-- Further away, as many usages as the file has, for each of the other files. -/
  further : ∀ i ∈ r.impacts, 2 ≤ i.depth →
    i.usages.length = ((usingFiles target us).length - 1) * us.countP (·.file == i.file)
  depth : r.depth = textDepth target us

theorem foldl_max_eq {ds : List Int} {m : ℕ} (hle : ∀ d ∈ ds, d ≤ m)
    (hmem : m = 0 ∨ (m : Int) ∈ ds) : ds.foldl max 0 = m := by
  refine (isGreatest_foldl_max ds 0).unique ⟨?_, fun d hd => ?_⟩
  · rcases hmem with rfl | hmem
    · exact List.mem_cons_self
    · exact List.mem_cons_of_mem _ hmem
  · rcases List.mem_cons.mp hd with rfl | hd
    · exact Int.natCast_nonneg m
    · exact hle d hd

theorem tellsTexts_reportImpacts {K : Type} [Arith K] {symbol target : String}
    {items : List Affected} (h : items.Perm (textSpread symbol target us)) :
    (reportImpacts symbol target (rankImpacts symbol items) : ImpactReport K).TellsTexts symbol
      target us := by
  have hperm : (rankImpacts symbol items : List (Impact K)).Perm
      ((textSpread symbol target us).map (·.impact symbol)) :=
    (List.mergeSort_perm _ _).trans (h.map _)
  refine ⟨⟨rfl, rfl⟩, hperm, fun i hi hdepth => ?_, ?_⟩
  · obtain ⟨a, ha, rfl⟩ := List.mem_map.mp (hperm.mem_iff.mp hi)
    rcases List.mem_append.mp ha with ha | ha
    · rcases List.mem_append.mp ha with ha | ha
      · obtain ⟨group, -, rfl⟩ := List.mem_map.mp ha
        change (2 : Int) ≤ 1 at hdepth
        omega
      · exact (mem_furtherSpread ha).2.2
    · exact (mem_furtherSpread ha).2.2
  · refine foldl_max_eq (fun d hd => ?_) ?_
    · obtain ⟨i, hi, rfl⟩ := List.mem_map.mp hd
      obtain ⟨a, ha, rfl⟩ := List.mem_map.mp (hperm.mem_iff.mp hi)
      exact Int.ofNat_le.mpr (depth_le_textDepth ha)
    · rcases exists_depth_eq_textDepth symbol target us with hzero | ⟨a, ha, hdepth⟩
      · exact Or.inl hzero
      · refine Or.inr (List.mem_map.mpr ⟨a.impact symbol, ?_, congrArg Int.ofNat hdepth⟩)
        exact hperm.mem_iff.mpr (List.mem_map_of_mem ha)

namespace Workspace

variable {K : Type} [Arith K] {w : Workspace} {repo : Path} {knowledge : KnowledgeSource}
  {symbol target : String} {file : Option String} {before after : List Search}

/-- **The impacts of a change of which nothing is reported** are what the usages of the symbol
tell. -/
theorem impacts_of_texts (haims : w.Aims repo knowledge symbol file before target after)
    (hcallers : knowledge (callersOf symbol target) = .ok [])
    (himporters : knowledge (importersOf symbol target) = .ok []) :
    (∀ us, w.usages repo symbol none = .ok us → ∃ (r : ImpactReport K) (done : List Search),
      Finds (w.impactOf K repo knowledge symbol file) before r done ∧
        r.TellsTexts symbol target us) ∧
    (w.tree.WellNamed → repo.root = "/" → Held w.tree repo.parts →
      ∃ us, w.usages repo symbol none = .ok us) := by
  refine ⟨fun us hus => ?_, fun hnamed hroot hheld => exists_usages hnamed hroot hheld symbol⟩
  have hreported : reportsOf knowledge symbol target = [] := reportsOf_of_ok hcallers himporters
  let c : Change := ⟨fun _ => us, target, symbol, us.filter (·.file != target), []⟩
  have hc : c.IsOf w repo knowledge symbol target := by
    refine ⟨hreported.symm, rfl, rfl, fun s hs => ?_, rfl⟩
    rw [List.mem_singleton.mp hs]
    exact hus
  obtain ⟨done, h⟩ := finds_impactOf_of_aims (K := K) haims hc hcallers himporters
    fun hit hmem => absurd hmem List.not_mem_nil
  have htext : c.TextOnly us := ⟨rfl, rfl, rfl⟩
  exact ⟨_, done, h, tellsTexts_reportImpacts htext.affected_perm⟩

end Workspace

theorem Trio.wellNamed : folder.workspace.tree.WellNamed := by
  refine .folder (by decide) (by decide) (List.forall_mem_singleton.mpr ?_)
  refine .folder (by decide) (by decide) fun x hx => ?_
  obtain ⟨y, -, rfl⟩ := List.mem_map.mp hx
  exact .file _

/-- Three files use a symbol of a fourth, and each is listed at all three depths. -/
theorem Workspace.impacts_of_texts_trio : ∃ (us : List Usage) (r : ImpactReport Computed)
    (done : List Search),
    Trio.folder.workspace.usages PlainFolder.repo "f" none = .ok us ∧
    Finds (Trio.folder.workspace.impactOf Computed PlainFolder.repo Trio.silence "f" (some "t.ts"))
      [] r done ∧
    r.TellsTexts "f" "t.ts" us ∧ usingFiles "t.ts" us = ["a.ts", "b.ts", "c.ts"] ∧ r.depth = 3 := by
  have haims : Trio.folder.workspace.Aims PlainFolder.repo Trio.silence "f" (some "t.ts") []
      "t.ts" [] := aims_of_name (by decide) (finds_normalTarget (by decide))
  obtain ⟨hreport, husages⟩ := impacts_of_texts (K := Computed) haims rfl rfl
  have hheld : Held Trio.folder.workspace.tree PlainFolder.repo.parts :=
    held_of_locate rfl Trio.folder.locate_repo
  obtain ⟨us, hus⟩ := husages Trio.wellNamed rfl hheld
  obtain ⟨r, done, hfinds, htells⟩ := hreport us hus
  have heq : us = Trio.folder.usagesOf "f" :=
    Except.ok.inj (hus.symm.trans (Trio.folder.usages_eq "f"))
  have hfiles : usingFiles "t.ts" us = ["a.ts", "b.ts", "c.ts"] := by
    rw [heq]
    decide +kernel
  refine ⟨us, r, done, hus, hfinds, htells, hfiles, ?_⟩
  rw [htells.depth, textDepth, hfiles]
  rfl

end CodeAtlas
