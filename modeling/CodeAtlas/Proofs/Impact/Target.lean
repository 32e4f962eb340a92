import CodeAtlas.Proofs.Impact.Inquiry

/-!
# The file that changes

The usages found in the texts are looked through for the file that changes. The uses that a
knowledge source reports are not.

* **`Workspace.lists_target_iff`**: when the file that changes is listed.
-/

namespace CodeAtlas

namespace Change

variable {c : Change} {a : Affected}

theorem mem_affected_root (hdirect : ∀ u ∈ c.direct, u.file ≠ c.root) (ha : a ∈ c.affected)
    (hroot : a.file = c.root) : ∃ r ∈ c.reported, a = r.affected := by
  rcases mem_affected.mp ha with hfirst | hsecond | hthird
  · rcases mem_first hfirst with ⟨-, -, hne, husages⟩ | hreported
    · obtain ⟨u, hu⟩ := List.exists_mem_of_ne_nil _ hne
      have hfile := file_of_mem_usages hfirst hu
      rw [husages] at hu
      exact absurd (hfile.trans hroot) (hdirect u (List.mem_filter.mp hu).1)
    · exact hreported
  · obtain ⟨-, -, hne, -⟩ := mem_next hsecond
    exact absurd hroot hne
  · obtain ⟨-, -, hne, -⟩ := mem_next hthird
    exact absurd hroot hne

theorem exists_mem_affected_root {r : ReportedUse} (hr : r ∈ c.reported) (hroot : r.file = c.root) :
    ∃ a ∈ c.affected, a.file = c.root := by
  obtain ⟨a, ha, hfile, -⟩ := exists_of_reported hr
  exact ⟨a, mem_affected.mpr (Or.inl ha), hfile.trans hroot⟩

end Change

namespace Workspace

variable {K : Type} [Arith K] {w : Workspace} {repo : Path} {knowledge : KnowledgeSource}
  {symbol : String} {file : Option String} {before after : List Search}

/-- **The file that changes is listed** just if the knowledge source reports it, next to the change
and without a line of text. -/
theorem lists_target_iff {r : ImpactReport K}
    (h : Finds (w.impactOf K repo knowledge symbol file) before r after) :
    ((∃ i ∈ r.impacts, i.file = r.file ∨ ∃ u ∈ i.usages, u.file = r.file) ↔
      ∃ use ∈ reportsOf knowledge symbol r.file, use.file = r.file) ∧
    ∀ i ∈ r.impacts, (i.file = r.file ∨ ∃ u ∈ i.usages, u.file = r.file) →
      ∃ use ∈ reportsOf knowledge symbol r.file, use.file = r.file ∧
        i.file = use.file ∧ i.symbol = use.user ∧ i.depth = 1 ∧ i.usages = [use.usage] := by
  obtain ⟨c, hc, hr⟩ := exists_change h
  have himpacts : r.impacts = rankImpacts symbol c.affected := by
    rw [hr]
    rfl
  have hdirect : ∀ u ∈ c.direct, u.file ≠ c.root := by
    intro u hu
    rw [hc.direct] at hu
    exact bne_iff_ne.mp (List.mem_filter.mp hu).2
  have hlisted : ∀ i ∈ r.impacts, (i.file = r.file ∨ ∃ u ∈ i.usages, u.file = r.file) →
      ∃ use ∈ reportsOf knowledge symbol r.file, use.file = r.file ∧
        i.file = use.file ∧ i.symbol = use.user ∧ i.depth = 1 ∧ i.usages = [use.usage] := by
    intro i hi hfile
    rw [himpacts] at hi
    obtain ⟨a, ha, rfl⟩ := mem_rankImpacts.mp hi
    have hroot : a.file = c.root := by
      rw [hc.root]
      rcases hfile with hfile | ⟨u, hu, hfile⟩
      · exact hfile
      · exact (Change.file_of_mem_usages (Change.mem_level_depth ha).1 hu).symm.trans hfile
    obtain ⟨use, huse, rfl⟩ := Change.mem_affected_root hdirect ha hroot
    exact ⟨use, hc.reported ▸ huse, hroot.trans hc.root, rfl, rfl, rfl, rfl⟩
  refine ⟨⟨?_, ?_⟩, hlisted⟩
  · rintro ⟨i, hi, hfile⟩
    obtain ⟨use, huse, hroot, -⟩ := hlisted i hi hfile
    exact ⟨use, huse, hroot⟩
  · rintro ⟨use, huse, hfile⟩
    obtain ⟨a, ha, hroot⟩ := Change.exists_mem_affected_root (hc.reported ▸ huse)
      (hfile.trans hc.root.symm)
    refine ⟨a.impact symbol, ?_, Or.inl (hroot.trans hc.root)⟩
    rw [himpacts]
    exact mem_rankImpacts.mpr ⟨a, ha, rfl⟩

end Workspace

/-! ## A caller in the same file -/

namespace Neighbour

def folder : PlainFolder where
  files := [("a.ts", .plain "")]

/-- Whatever is asked, a caller in that file is reported. -/
def knowledge : KnowledgeSource := fun _ =>
  .ok [{ score := .whole 1
         details := some [("caller", .str "g"), ("caller_file", .str "a.ts")] }]

theorem reportsOf_eq : reportsOf knowledge "f" "a.ts" = [⟨"g", "a.ts", "CALLED_BY"⟩] := by
  rw [reportsOf_of_ok rfl rfl]
  rfl

theorem exists_finds : ∃ after,
    Finds (folder.workspace.impactOf Computed PlainFolder.repo knowledge "f" (some "a.ts")) []
      (reportImpacts "f" "a.ts"
        (rankImpacts "f" (folder.change knowledge "f" "a.ts").affected)) after :=
  Workspace.finds_impactOf (by decide) (Workspace.finds_normalTarget (by decide))
    (folder.isOf_change knowledge "f" "a.ts") rfl rfl (by decide)

end Neighbour

namespace Workspace

theorem lists_target_iff_neighbour : ∃ r after,
    Finds (Neighbour.folder.workspace.impactOf Computed PlainFolder.repo Neighbour.knowledge "f"
      (some "a.ts")) [] r after ∧
    (∃ use ∈ reportsOf Neighbour.knowledge "f" r.file, use.file = r.file) ∧
    ∃ i ∈ r.impacts, i.file = r.file ∨ ∃ u ∈ i.usages, u.file = r.file := by
  obtain ⟨after, h⟩ := Neighbour.exists_finds
  have hreported : ∃ use ∈ reportsOf Neighbour.knowledge "f" "a.ts", use.file = "a.ts" := by
    rw [Neighbour.reportsOf_eq]
    exact ⟨_, List.mem_singleton_self _, rfl⟩
  exact ⟨_, after, h, hreported, (lists_target_iff h).1.mpr hreported⟩

/-- A file that is listed as affected by its own change. -/
theorem target_listed : ∃ r after,
    Finds (Neighbour.folder.workspace.impactOf Computed PlainFolder.repo Neighbour.knowledge "f"
      (some "a.ts")) [] r after ∧ r.file = "a.ts" ∧ ∃ i ∈ r.impacts, i.file = "a.ts" := by
  obtain ⟨after, h⟩ := Neighbour.exists_finds
  have hreported : (⟨"g", "a.ts", "CALLED_BY"⟩ : ReportedUse) ∈
      (Neighbour.folder.change Neighbour.knowledge "f" "a.ts").reported := by
    change _ ∈ reportsOf Neighbour.knowledge "f" "a.ts"
    rw [Neighbour.reportsOf_eq]
    exact List.mem_singleton_self _
  obtain ⟨a, ha, hfile⟩ := Change.exists_mem_affected_root hreported rfl
  exact ⟨_, after, h, rfl, a.impact "f", mem_rankImpacts.mpr ⟨a, ha, rfl⟩, hfile⟩

end Workspace

end CodeAtlas
