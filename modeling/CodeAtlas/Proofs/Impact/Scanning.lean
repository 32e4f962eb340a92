import CodeAtlas.Impact.Spread
import CodeAtlas.Proofs.Files.Removal

/-!
# Every listed file can be looked through

A file that stands in the tree has no link on its way, and a link that is listed leads to a file, so
no listed path leads in a circle.

* **`Workspace.exists_usages`**: the usages of a symbol can be looked up.
-/

namespace CodeAtlas

/-- No name on the way along the parts is a link. -/
def NoLinks (tree : Entry) (here parts : List String) : Prop :=
  ∀ front, front <+: parts → front ≠ [] →
    ∀ target, tree.below? (here ++ front) ≠ some (.link target)

section Way

variable {tree : Entry} {here parts : List String} {part : String}

theorem NoLinks.head (h : NoLinks tree here (part :: parts)) (target : String) :
    tree.below? (here ++ [part]) ≠ some (.link target) :=
  h [part] (by simp) (by simp) target

theorem NoLinks.tail (h : NoLinks tree here (part :: parts)) :
    NoLinks tree (here ++ [part]) parts := by
  intro front hfront hne target
  rw [List.append_assoc, List.singleton_append]
  exact h (part :: front) (List.cons_prefix_cons.mpr ⟨rfl, hfront⟩) (List.cons_ne_nil _ _) target

theorem noLinks_of_below? {e : Entry} (he : tree.below? parts = some e) (hplain : e.IsPlain) :
    NoLinks tree [] parts := by
  rintro front ⟨rest, rfl⟩ - target hlink
  rw [List.nil_append] at hlink
  rw [Entry.below?_append, hlink] at he
  cases rest with
  | nil => exact hplain target (Option.some.inj he).symm
  | cons name rest => cases he

theorem Held.noLinks (h : Held tree parts) : NoLinks tree [] parts := by
  cases h with
  | top => exact fun front hfront hne => absurd (List.prefix_nil.mp hfront) hne
  | child _ _ _ he hplain => exact noLinks_of_below? he hplain

theorem PlainPart.notMem_dots (h : PlainPart part) : part ∉ ["", ".", ".."] := by
  simp [h.ne_empty, h.ne_dot, h.ne_dots]

theorem NoLinks.follow_ne (h : NoLinks tree here parts) (hparts : ∀ p ∈ parts, PlainPart p)
    (links : ℕ) : follow tree false links here parts ≠ .error .linkLoop := by
  induction parts generalizing here with
  | nil =>
    rw [follow]
    intro hc
    cases hc
  | cons part parts ih =>
    obtain ⟨hpart, hparts⟩ := List.forall_mem_cons.mp hparts
    by_cases hfolder : ∃ entries, tree.below? (here ++ [part]) = some (.folder entries)
    · obtain ⟨entries, hfolder⟩ := hfolder
      by_cases hsize : part.utf8ByteSize ≤ nameLimit
      · rw [follow_folder hpart.notMem_dots hsize hfolder]
        exact ih h.tail hparts
      · rw [follow_long hpart.notMem_dots (Nat.lt_of_not_le hsize)]
        intro hc
        cases hc
    · exact follow_ne_linkLoop hpart.notMem_dots (not_exists.mp hfolder) h.head

theorem NoLinks.run_eq (h : NoLinks tree here parts) (hparts : ∀ p ∈ parts, PlainPart p)
    (met : Table (List String) (Option (List String))) (fuel : ℕ) :
    Resolution.run tree (parts.length + fuel) ⟨here, parts.map .part, met⟩ = here ++ parts := by
  induction parts generalizing here with
  | nil => rw [List.map_nil, Resolution.run_done, List.append_nil]
  | cons part parts ih =>
    obtain ⟨hpart, hparts⟩ := List.forall_mem_cons.mp hparts
    have hfuel : (part :: parts).length + fuel = parts.length + fuel + 1 := by
      rw [List.length_cons]
      omega
    rw [hfuel, List.map_cons, Resolution.run_part hpart.notMem_dots h.head, ih h.tail hparts,
      List.append_assoc, List.singleton_append]

end Way

namespace Workspace

variable {w : Workspace} {g repo : Path} {symbol : String}

/-- A path from the top without links and dots resolves to itself. -/
theorem resolve_of_noLinks (hroot : g.root = "/") (hclear : NoLinks w.tree [] g.parts)
    (hplain : ∀ p ∈ g.parts, PlainPart p) (hnull : ¬ g.hasNull = true) :
    w.resolve g = .ok g := by
  obtain ⟨root, parts⟩ := g
  obtain rfl : root = "/" := hroot
  have hnames : w.resolvedNames ⟨"/", parts⟩ = parts := by
    rw [resolvedNames, start_of_isAbsolute rfl, Nat.add_assoc, hclear.run_eq hplain,
      List.nil_append]
  have hlocate : w.locate false ⟨"/", parts⟩ ≠ .error .linkLoop := by
    intro hloop
    unfold locate at hloop
    split_ifs at hloop
    · cases hloop
    · exact hclear.follow_ne hplain _ hloop
  rw [resolve, if_neg hnull]
  dsimp only
  rw [hnames]
  split
  · rename_i hloop
    exact absurd hloop hlocate
  · rfl

/-- **A listed path has a place in the repository.** -/
theorem Lists.exists_relative (h : w.Lists g) (hnamed : w.tree.WellNamed) (repo : Path) :
    ∃ text, w.relative repo g = .ok text := by
  cases hrelative : w.relative repo g with
  | ok text => exact ⟨text, rfl⟩
  | error e =>
    obtain ⟨-, hloop⟩ := relative_eq_error hrelative
    rcases h.entry with ⟨f, hf⟩ | ⟨-, hfile⟩
    · -- a file in the tree stands at the end of its own names
      have hclear := noLinks_of_below? hf (by intro target hc; cases hc)
      by_cases hnull : g.hasNull = true
      · rw [resolve, if_pos hnull] at hloop
        cases hloop
      · rw [resolve_of_noLinks h.root hclear (h.plain hnamed) hnull] at hloop
        cases hloop
    · obtain ⟨f, hf⟩ := isFile_iff.mp hfile
      obtain ⟨names, hlocate, -⟩ := entry_eq_ok_iff.mp hf
      have habsolute : g.isAbsolute = true := by
        rw [Path.isAbsolute, h.root]
        rfl
      rw [resolve_of_locate habsolute hlocate] at hloop
      cases hloop

/-- **The usages of a symbol can be looked up**, whatever the files hold. -/
theorem exists_usages (hnamed : w.tree.WellNamed) (hroot : repo.root = "/")
    (hheld : Held w.tree repo.parts) (symbol : String) :
    ∃ us, w.usages repo symbol none = .ok us := by
  have hfile : ∀ g ∈ w.discover repo repo {}, ∃ us, w.usagesInFile repo symbol g = .ok us := by
    intro g hg
    obtain ⟨text, htext⟩ :=
      (lists_of_mem_discover hnamed hroot hheld hg).exists_relative hnamed repo
    rw [usagesInFile, htext]
    cases hread : w.file g with
    | ok f => exact ⟨_, rfl⟩
    | error fault => exact ⟨_, rfl⟩
  obtain ⟨parts, hparts⟩ := exists_mapM hfile
  have hfiles : w.sourceFiles repo none = .ok (w.discover repo repo {}) := rfl
  refine ⟨parts.flatten, ?_⟩
  rw [usages, hfiles]
  dsimp only
  rw [hparts]
  rfl

end Workspace

end CodeAtlas
