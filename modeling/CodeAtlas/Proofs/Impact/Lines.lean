import CodeAtlas.Proofs.Impact.Inquiry
import CodeAtlas.Proofs.Impact.Usage
import Mathlib.Data.List.Perm.Subperm

/-!
# How often a line is listed

Next to the change a file is read once. Further away it is read again for every other file from
which the change goes on, so one line can be listed many times.

* **`Workspace.lines_listed_per_reading`**: a line is listed once for each reading that finds it.
-/

namespace CodeAtlas

def textLines (usages : List Usage) : List Int := (usages.map (·.line)).filter (1 ≤ ·)

/-- The entry lists usages of the kind: next to the change its own, further away any. -/
def Affected.takes (a : Affected) (kind : String) : Bool := a.depth != 1 || kind == a.tag

theorem count_textLines {usages : List Usage} {n : Nat} (hn : 1 ≤ n) :
    (textLines usages).count (n : Int) = (usages.map (·.line)).count (n : Int) := by
  refine List.count_filter (decide_eq_true ?_)
  omega

/-- Parts that hold an item at most once hold it as often as there are parts with it. -/
theorem count_flatMap_eq_countP {α β : Type} [BEq β] {xs : List α} {f : α → List β} {b : β}
    {P : α → Bool} (h : ∀ x ∈ xs, (f x).count b = if P x then 1 else 0) :
    (xs.flatMap f).count b = xs.countP P := by
  induction xs with
  | nil => rfl
  | cons x xs ih =>
    rw [List.flatMap_cons, List.count_append, h x List.mem_cons_self,
      ih fun y hy => h y (List.mem_cons_of_mem x hy), List.countP_cons, Nat.add_comm]

namespace Change

def leads (c : Change) (a : Affected) : List String :=
  if a.depth = 1 then [c.symbol]
  else ((onePerFile (c.level (a.depth - 1))).filter (·.file != a.file)).map (·.symbol)

/-- The readings of the file of an entry: a symbol that is searched for, and a text. -/
def readings (c : Change) (w : Workspace) (repo : Path) (a : Affected) : List (String × String) :=
  (c.leads a).flatMap fun symbol => (w.textsOf repo a.file).map fun text => (symbol, text)

/-- How often the line is read as a usage that counts. -/
def timesRead (c : Change) (w : Workspace) (repo : Path) (a : Affected) (n : Nat) : Nat :=
  (c.readings w repo a).countP fun (symbol, text) => (kindAt? text symbol n).any a.takes

variable {c : Change} {w : Workspace} {repo : Path} {knowledge : KnowledgeSource}
  {symbol target : String} {a : Affected}

variable (c a) in
theorem leads_subset : c.leads a ⊆ c.tracked := by
  intro s hs
  unfold leads at hs
  split at hs
  · rw [List.mem_singleton.mp hs]
    exact List.mem_cons_self
  · obtain ⟨b, hb, rfl⟩ := List.mem_map.mp hs
    exact symbol_mem_tracked (onePerFile_subset _ (List.mem_filter.mp hb).1)

def listed (c : Change) (w : Workspace) (repo : Path) (a : Affected) : List Usage :=
  (c.readings w repo a).flatMap fun (symbol, text) =>
    (usagesInText a.file text symbol).filter (a.takes ·.kind)

theorem listed_eq (c : Change) (w : Workspace) (repo : Path) (a : Affected) :
    c.listed w repo a = (c.leads a).flatMap fun symbol =>
      ((w.textsOf repo a.file).flatMap (usagesInText a.file · symbol)).filter (a.takes ·.kind) := by
  simp only [listed, readings, List.flatMap_assoc, List.flatMap_map, List.filter_flatMap]

/-- **An entry lists what the readings find**, or it is only reported. -/
theorem usages_eq_listed (hc : c.IsOf w repo knowledge symbol target) (ha : a ∈ c.affected) :
    a.usages = c.listed w repo a ∨ ∃ r ∈ c.reported, a = r.affected := by
  obtain ⟨hlevel, hone, -⟩ := mem_level_depth ha
  rw [listed_eq]
  obtain hdepth | ⟨d, hdepth⟩ : a.depth = 1 ∨ ∃ d, a.depth = d + 2 := by
    rcases Nat.lt_or_ge a.depth 2 with hlt | hge
    · exact Or.inl (by omega)
    · exact Or.inr ⟨a.depth - 2, by omega⟩
  · rw [hdepth] at hlevel
    rcases mem_first hlevel with ⟨-, -, hne, husages⟩ | hreported
    · refine Or.inl ?_
      -- the file is not the one that changes, so all of its usages count
      have hfile : a.file ≠ c.root := by
        obtain ⟨u, hu⟩ := List.exists_mem_of_ne_nil _ hne
        have hof := file_of_mem_usages hlevel hu
        rw [husages, hc.direct] at hu
        rw [← hof]
        exact bne_iff_ne.mp (List.mem_filter.mp (List.mem_filter.mp hu).1).2
      have hscan := Workspace.filter_usages (hc.scanned c.symbol List.mem_cons_self) a.file
      have htakes : ∀ kind, a.takes kind = (kind == a.tag) := by
        intro kind
        simp [Affected.takes, hdepth]
      rw [husages, hc.direct, leads, if_pos hdepth, List.flatMap_singleton, ← hscan,
        List.filter_filter, List.filter_filter]
      refine List.filter_congr fun u _ => ?_
      rw [htakes]
      by_cases hu : u.file = a.file
      · have hroot : (u.file != c.root) = true := bne_iff_ne.mpr (hu ▸ hfile)
        rw [hroot, hu, beq_self_eq_true, Bool.true_and]
      · rw [beq_false_of_ne hu, Bool.false_and, Bool.false_and, Bool.and_false]
    · exact Or.inr hreported
  · rw [hdepth] at hlevel
    obtain ⟨-, -, -, -, husages⟩ := mem_next hlevel
    have htakes : ∀ kind, a.takes kind = true := by
      intro kind
      simp [Affected.takes, hdepth]
    refine Or.inl ?_
    rw [husages, leads, if_neg (by omega), List.flatMap_map, hdepth]
    refine List.flatMap_congr fun b hb => ?_
    have htracked : b.symbol ∈ c.tracked :=
      symbol_mem_tracked (onePerFile_subset _ (List.mem_filter.mp hb).1)
    rw [← Workspace.filter_usages (hc.scanned b.symbol htracked) a.file]
    simp [htakes]

theorem count_textLines_eq (hc : c.IsOf w repo knowledge symbol target) (ha : a ∈ c.affected)
    {n : Nat} (hn : 1 ≤ n) : (textLines a.usages).count (n : Int) = c.timesRead w repo a n := by
  rw [count_textLines hn]
  rcases usages_eq_listed hc ha with husages | ⟨r, hr, rfl⟩
  · rw [husages, listed, List.map_flatMap]
    refine count_flatMap_eq_countP fun x _ => ?_
    exact count_usagesInText a.file x.2 x.1 a.takes hn
  · -- a relation is no kind of use, so the readings find nothing for a reported entry
    have hrelation := relation_of_mem_reportsOf (hc.reported ▸ hr)
    have hnone : c.timesRead w repo r.affected n = 0 := by
      refine List.countP_eq_zero.mpr fun x _ hx => ?_
      obtain ⟨kind, hkind, htakes⟩ := (Option.any_eq_true _ _).mp hx
      have hmem : kind ∈ usageKinds := by
        obtain ⟨line, -, hline⟩ := Option.bind_eq_some_iff.mp hkind
        exact (kindOf?_eq_some hline).2
      have heq : kind = r.relation := by
        simpa [Affected.takes, ReportedUse.affected] using htakes
      rw [heq] at hmem
      have hdisjoint : ∀ x ∈ ["CALLED_BY", "IMPORTED_BY"], x ∉ usageKinds := by decide
      exact hdisjoint _ hrelation hmem
    rw [hnone]
    refine List.count_eq_zero.mpr fun hmem => ?_
    rw [ReportedUse.affected, List.map_singleton, List.mem_singleton] at hmem
    have hline : r.usage.line = 0 := rfl
    omega

theorem nodup_textLines_iff (hc : c.IsOf w repo knowledge symbol target) (ha : a ∈ c.affected) :
    (textLines a.usages).Nodup ↔ ∀ n, 1 ≤ n → c.timesRead w repo a n ≤ 1 := by
  rw [List.nodup_iff_count_le_one]
  constructor
  · intro h n hn
    rw [← count_textLines_eq hc ha hn]
    exact h n
  · intro h line
    by_cases hline : 1 ≤ line
    · obtain ⟨n, rfl⟩ := Int.eq_ofNat_of_zero_le (by omega : 0 ≤ line)
      have hn : 1 ≤ n := by omega
      rw [count_textLines_eq hc ha hn]
      exact h n hn
    · have hzero : (textLines a.usages).count line = 0 := by
        refine List.count_eq_zero.mpr fun hmem => hline ?_
        exact of_decide_eq_true (List.mem_filter.mp hmem).2
      omega

theorem nodup_textLines_first (hc : c.IsOf w repo knowledge symbol target) (ha : a ∈ c.affected)
    (hdepth : a.depth = 1) (hone : (w.textsOf repo a.file).length ≤ 1) :
    (textLines a.usages).Nodup := by
  refine (nodup_textLines_iff hc ha).mpr fun n _ => ?_
  have hlength : (c.readings w repo a).length ≤ 1 := by
    rw [readings, leads, if_pos hdepth, List.flatMap_singleton, List.length_map]
    exact hone
  exact Nat.le_trans List.countP_le_length hlength

def linesWith (test : String → Bool) (lines : List String) : List Int :=
  ((lines.zipIdx 1).filter fun x => test x.1).map fun x => (x.2 : Int)

theorem length_linesWith (test : String → Bool) (lines : List String) :
    (linesWith test lines).length = lines.countP test := by
  rw [linesWith, List.length_map, ← List.countP_eq_length_filter]
  conv_rhs => rw [← List.zipIdx_map_fst 1 lines, List.countP_map]
  rfl

/-- Lines that are listed once are no more than the lines that use a symbol looked at. -/
theorem length_textLines_le (hc : c.IsOf w repo knowledge symbol target) (ha : a ∈ c.affected)
    {text : String} (htext : w.textsOf repo a.file = [text]) (h : (textLines a.usages).Nodup) :
    (textLines a.usages).length ≤ (Text.linesOf text).countP fun line =>
      c.tracked.any (usesSymbol (withoutComment line)) := by
  rw [← length_linesWith]
  refine (List.Nodup.subperm h fun line hline => ?_).length_le
  have hpos : 1 ≤ line := of_decide_eq_true (List.mem_filter.mp hline).2
  obtain ⟨n, rfl⟩ := Int.eq_ofNat_of_zero_le (by omega : 0 ≤ line)
  have hn : 1 ≤ n := by omega
  have hread : 0 < c.timesRead w repo a n := by
    rw [← count_textLines_eq hc ha hn]
    exact List.count_pos_iff.mpr hline
  obtain ⟨⟨s, t⟩, hmem, hfound⟩ := List.countP_pos_iff.mp hread
  obtain ⟨s', hs, hst⟩ := List.mem_flatMap.mp hmem
  rw [htext, List.map_singleton, List.mem_singleton] at hst
  obtain ⟨rfl, rfl⟩ := Prod.mk.inj hst
  obtain ⟨kind, hkind, -⟩ := (Option.any_eq_true _ _).mp hfound
  obtain ⟨found, hget, hof⟩ := Option.bind_eq_some_iff.mp hkind
  have huses : c.tracked.any (usesSymbol (withoutComment found)) = true :=
    List.any_eq_true.mpr ⟨s, c.leads_subset a hs, (kindOf?_eq_some hof).1⟩
  refine List.mem_map.mpr ⟨(found, n), List.mem_filter.mpr ⟨?_, huses⟩, rfl⟩
  exact List.mk_mem_zipIdx_iff_le_and_getElem?_sub.mpr ⟨hn, hget⟩

end Change

namespace Workspace

variable {K : Type} [Arith K] {w : Workspace} {repo : Path} {knowledge : KnowledgeSource}
  {symbol : String} {file : Option String} {before after : List Search}

/-- **A line is listed once for each reading that finds it**, so it can be listed more than once. -/
theorem lines_listed_per_reading {r : ImpactReport K}
    (h : Finds (w.impactOf K repo knowledge symbol file) before r after) :
    ∃ c : Change, c.IsOf w repo knowledge symbol r.file ∧
      r.impacts.Perm (c.affected.map (·.impact symbol)) ∧
      ∀ a ∈ c.affected,
        (∀ n : Nat, 1 ≤ n → (textLines a.usages).count (n : Int) = c.timesRead w repo a n) ∧
        ((textLines a.usages).Nodup ↔ ∀ n, 1 ≤ n → c.timesRead w repo a n ≤ 1) ∧
        (a.depth = 1 → (w.textsOf repo a.file).length ≤ 1 → (textLines a.usages).Nodup) ∧
        ∀ text, w.textsOf repo a.file = [text] → (textLines a.usages).Nodup →
          (textLines a.usages).length ≤ (Text.linesOf text).countP fun line =>
            c.tracked.any (usesSymbol (withoutComment line)) := by
  obtain ⟨c, hc, hr⟩ := exists_change h
  refine ⟨c, hc, ?_, fun a ha => ⟨fun n hn => ?_, ?_, ?_, ?_⟩⟩
  · rw [hr]
    exact List.mergeSort_perm _ _
  · exact Change.count_textLines_eq hc ha hn
  · exact Change.nodup_textLines_iff hc ha
  · exact Change.nodup_textLines_first hc ha
  · exact fun text => Change.length_textLines_le hc ha

end Workspace

/-! ## Three files -/

namespace Trio

/-- Three files that use a symbol on their only line. -/
def folder : PlainFolder where
  files := [("a.ts", .plain "f()"), ("b.ts", .plain "f()"), ("c.ts", .plain "f()")]

def silence : KnowledgeSource := fun _ => .ok []

theorem affected_eq : (folder.change silence "f" "t.ts").affected.map
    (fun a => (a.file, a.depth, textLines a.usages)) =
      [("a.ts", 1, [1]), ("b.ts", 1, [1]), ("c.ts", 1, [1]),
        ("b.ts", 2, [1, 1]), ("c.ts", 2, [1, 1]), ("a.ts", 2, [1, 1]),
        ("a.ts", 3, [1, 1]), ("c.ts", 3, [1, 1]), ("b.ts", 3, [1, 1])] := by
  decide +kernel

theorem exists_finds : ∃ after,
    Finds (folder.workspace.impactOf Computed PlainFolder.repo silence "f" (some "t.ts")) []
      (reportImpacts "f" "t.ts" (rankImpacts "f" (folder.change silence "f" "t.ts").affected))
      after :=
  Workspace.finds_impactOf (by decide) (Workspace.finds_normalTarget (by decide))
    (folder.isOf_change silence "f" "t.ts") rfl rfl (by decide)

/-- The only line of a file is listed twice. -/
theorem line_listed_twice : ∃ r after,
    Finds (folder.workspace.impactOf Computed PlainFolder.repo silence "f" (some "t.ts")) [] r
      after ∧
    ∃ i ∈ r.impacts, i.file = "a.ts" ∧ i.depth = 2 ∧ textLines i.usages = [1, 1] := by
  obtain ⟨after, h⟩ := exists_finds
  have hmem : ("a.ts", 2, [1, 1]) ∈ (folder.change silence "f" "t.ts").affected.map
      (fun a => (a.file, a.depth, textLines a.usages)) := by
    rw [affected_eq]
    decide
  obtain ⟨a, ha, hview⟩ := List.mem_map.mp hmem
  obtain ⟨hfile, hrest⟩ := Prod.mk.inj hview
  obtain ⟨hdepth, hlines⟩ := Prod.mk.inj hrest
  refine ⟨_, after, h, a.impact "f", mem_rankImpacts.mpr ⟨a, ha, rfl⟩, hfile, ?_, hlines⟩
  rw [Affected.impact, hdepth]
  rfl

end Trio

theorem Workspace.lines_listed_per_reading_trio : ∃ r after,
    Finds (Trio.folder.workspace.impactOf Computed PlainFolder.repo Trio.silence "f" (some "t.ts"))
      [] r after ∧
    ∃ c : Change, c.IsOf Trio.folder.workspace PlainFolder.repo Trio.silence "f" r.file ∧
      r.impacts.Perm (c.affected.map (·.impact "f")) ∧
      ∀ a ∈ c.affected, ∀ n : Nat, 1 ≤ n →
        (textLines a.usages).count (n : Int) =
          c.timesRead Trio.folder.workspace PlainFolder.repo a n := by
  obtain ⟨after, h⟩ := Trio.exists_finds
  obtain ⟨c, hc, hperm, hlines⟩ := lines_listed_per_reading h
  exact ⟨_, after, h, c, hc, hperm, fun a ha => (hlines a ha).1⟩

end CodeAtlas
