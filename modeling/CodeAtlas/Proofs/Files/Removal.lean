import CodeAtlas.Proofs.Files.Listing

/-!
# A workspace without one of its files

An entry that is no folder is taken out of the tree. Paths that do not come by it lead where they
led before.

* **`Workspace.discover_without`**: what a search lists.
-/

namespace CodeAtlas

/-! ## The tree without an entry -/

mutual

def Entry.prune (names here : List String) : Entry → Entry
  | .file f => .file f
  | .link target => .link target
  | .folder entries => .folder (Entry.pruneAll names here entries)

def Entry.pruneAll (names here : List String) : List (String × Entry) → List (String × Entry)
  | [] => []
  | (name, e) :: rest =>
    if here ++ [name] = names then Entry.pruneAll names here rest
    else (name, e.prune names (here ++ [name])) :: Entry.pruneAll names here rest

end

variable {entries : List (String × Entry)}

namespace Entry

variable {tree : Entry} {names here ns : List String}

theorem get?_pruneAll (names here : List String) (entries : List (String × Entry)) (name : String) :
    Table.get? (pruneAll names here entries) name =
      if here ++ [name] = names then none
      else (Table.get? entries name).map (prune names (here ++ [name])) := by
  induction entries with
  | nil => split_ifs <;> rfl
  | cons x entries ih =>
    rw [pruneAll]
    by_cases hname : x.1 = name
    · subst hname
      by_cases hnames : here ++ [x.1] = names
      · rw [if_pos hnames, ih, if_pos hnames, if_pos hnames]
      · rw [if_neg hnames, if_neg hnames]
        simp [Table.get?]
    · have hcons : Table.get? (x :: entries) name = Table.get? entries name := by
        simp [Table.get?, hname]
      rw [hcons, ← ih]
      split_ifs
      · rfl
      · simp [Table.get?, hname]

theorem below?_prune (h : ∀ front, front ≠ [] → front <+: ns → here ++ front ≠ names) (e : Entry) :
    (e.prune names here).below? ns = (e.below? ns).map (prune names (here ++ ns)) := by
  induction ns generalizing e here with
  | nil =>
    rw [List.append_nil]
    rfl
  | cons name ns ih =>
    cases e with
    | file f => rfl
    | link target => rfl
    | folder entries =>
      have hname : here ++ [name] ≠ names := h [name] (by simp) (by simp)
      have hrest : ∀ front, front ≠ [] → front <+: ns → here ++ [name] ++ front ≠ names := by
        intro front _ hfront
        rw [List.append_assoc]
        exact h (name :: front) (by simp) (List.cons_prefix_cons.mpr ⟨rfl, hfront⟩)
      rw [prune, Entry.below?, Entry.below?, get?_pruneAll, if_neg hname, Option.map_bind]
      cases Table.get? entries name with
      | none => rfl
      | some e =>
        have happend : here ++ name :: ns = here ++ [name] ++ ns := by simp
        rw [happend]
        exact ih hrest e

theorem below?_prune_self (hne : ns ≠ []) (h : here ++ ns = names) (e : Entry) :
    (e.prune names here).below? ns = none := by
  induction ns generalizing e here with
  | nil => exact absurd rfl hne
  | cons name ns ih =>
    cases e with
    | file f => rfl
    | link target => rfl
    | folder entries =>
      rw [prune, Entry.below?, get?_pruneAll]
      split_ifs with hname
      · rfl
      · cases Table.get? entries name with
        | none => rfl
        | some e =>
          refine ih ?_ ?_ e
          · rintro rfl
            exact hname h
          · rw [← h, List.append_assoc]
            rfl

end Entry

/-- There is an entry at the names, and it is no folder. -/
structure Leaf (tree : Entry) (names : List String) : Prop where
  ne_nil : names ≠ []
  entry : ∃ e, tree.below? names = some e ∧ ∀ entries, e ≠ .folder entries

namespace Leaf

variable {tree : Entry} {names ns : List String}

theorem not_folder (h : Leaf tree names) : tree.below? names ≠ some (.folder entries) := by
  obtain ⟨e, he, hfolder⟩ := h.entry
  rw [he]
  exact fun heq => hfolder entries (Option.some.inj heq)

theorem exists_top (h : Leaf tree names) : ∃ entries, tree.below? [] = some (.folder entries) := by
  obtain ⟨e, he, -⟩ := h.entry
  obtain ⟨name, rest, rfl⟩ := List.exists_cons_of_ne_nil h.ne_nil
  exact Entry.exists_folder (show tree.below? ([] ++ name :: rest) = some e from he)

theorem goesOn_top (h : Leaf tree names) : GoesOn tree [] := by
  intro front hfront f hf
  obtain rfl := List.prefix_nil.mp hfront
  obtain ⟨entries, hentries⟩ := h.exists_top
  rw [hentries] at hf
  cases hf

theorem below?_prune (h : Leaf tree names) (hns : ns ≠ names) :
    (tree.prune names []).below? ns = (tree.below? ns).map (Entry.prune names ns) := by
  by_cases hbelow : names <+: ns
  · -- there is nothing below what is no folder
    obtain ⟨rest, rfl⟩ := hbelow
    cases rest with
    | nil => exact absurd (List.append_nil names) hns
    | cons name rest =>
      have hnone : tree.below? (names ++ name :: rest) = none := by
        refine Option.eq_none_iff_forall_ne_some.mpr fun e he => ?_
        obtain ⟨entries, hentries⟩ := Entry.exists_folder he
        exact h.not_folder hentries
      rw [hnone, Entry.below?_append, Entry.below?_prune_self h.ne_nil (List.nil_append names)]
      rfl
  · refine Entry.below?_prune (fun front _ hfront heq => hbelow ?_) tree
    rw [← heq]
    exact hfront

theorem below?_prune_self (h : Leaf tree names) : (tree.prune names []).below? names = none :=
  Entry.below?_prune_self h.ne_nil (List.nil_append names) tree

theorem prune_folder (h : Leaf tree names) (he : tree.below? ns = some (.folder entries)) :
    (tree.prune names []).below? ns = some (.folder (Entry.pruneAll names ns entries)) := by
  have hns : ns ≠ names := by
    rintro rfl
    exact h.not_folder he
  rw [h.below?_prune hns, he]
  rfl

variable {f : SourceFile} {target : String}

theorem prune_file (h : Leaf tree names) (hns : ns ≠ names) (he : tree.below? ns = some (.file f)) :
    (tree.prune names []).below? ns = some (.file f) := by
  rw [h.below?_prune hns, he]
  rfl

theorem prune_link (h : Leaf tree names) (hns : ns ≠ names)
    (he : tree.below? ns = some (.link target)) :
    (tree.prune names []).below? ns = some (.link target) := by
  rw [h.below?_prune hns, he]
  rfl

theorem exists_below? (h : Leaf tree names) {e : Entry}
    (he : (tree.prune names []).below? ns = some e) :
    ns ≠ names ∧ ∃ old, tree.below? ns = some old ∧ e = old.prune names ns := by
  have hns : ns ≠ names := by
    rintro rfl
    rw [h.below?_prune_self] at he
    cases he
  rw [h.below?_prune hns] at he
  obtain ⟨old, hold, rfl⟩ := Option.map_eq_some_iff.mp he
  exact ⟨hns, old, hold, rfl⟩

theorem of_prune_folder (h : Leaf tree names) {left : List (String × Entry)}
    (he : (tree.prune names []).below? ns = some (.folder left)) :
    ∃ entries, tree.below? ns = some (.folder entries) := by
  obtain ⟨-, old, hold, heq⟩ := h.exists_below? he
  cases old with
  | file f => cases heq
  | link target => cases heq
  | folder entries => exact ⟨entries, hold⟩

theorem of_prune_file (h : Leaf tree names)
    (he : (tree.prune names []).below? ns = some (.file f)) :
    ns ≠ names ∧ tree.below? ns = some (.file f) := by
  obtain ⟨hns, old, hold, heq⟩ := h.exists_below? he
  cases old with
  | file f' =>
    obtain rfl := Entry.file.inj heq
    exact ⟨hns, hold⟩
  | link target => cases heq
  | folder entries => cases heq

theorem of_prune_link (h : Leaf tree names)
    (he : (tree.prune names []).below? ns = some (.link target)) :
    tree.below? ns = some (.link target) := by
  obtain ⟨-, old, hold, heq⟩ := h.exists_below? he
  cases old with
  | file f => cases heq
  | link target' =>
    obtain rfl := Entry.link.inj heq
    exact hold
  | folder entries => cases heq

end Leaf

/-- At the names there is a file, or a link that leads to one. -/
structure FileLeaf (tree : Entry) (names : List String) : Prop where
  ne_nil : names ≠ []
  entry : (∃ f, tree.below? names = some (.file f)) ∨
    ∃ there n f, LinkLeads tree names there n ∧ tree.below? there = some (.file f)

theorem FileLeaf.leaf {tree : Entry} {names : List String} (h : FileLeaf tree names) :
    Leaf tree names := by
  refine ⟨h.ne_nil, ?_⟩
  rcases h.entry with ⟨f, hf⟩ | ⟨_, _, _, ⟨target, htarget, -⟩, -⟩
  · exact ⟨_, hf, nofun⟩
  · exact ⟨_, htarget, nofun⟩

/-! ## Ways that do not come by the entry -/

section Ways

variable {tree : Entry} {names : List String} {links : Nat} {here parts there : List String}

theorem follow_of_prune (hleaf : Leaf tree names)
    (h : follow (tree.prune names []) false links here parts = .ok there) :
    follow tree false links here parts = .ok there := by
  -- behind a link there are fewer links left, and else fewer parts
  induction links using Nat.strongRecOn generalizing here parts with
  | ind links ihlinks =>
    induction parts generalizing here with
    | nil =>
      rw [follow] at h ⊢
      exact h
    | cons part parts ih =>
      rcases follow_cons_eq_ok h with ⟨hstay, hrest⟩ | ⟨rfl, hrest⟩ | ⟨hpart, hsize, hbelow⟩
      · rw [follow_stay hstay]
        exact ih hrest
      · rw [follow_up]
        exact ih hrest
      · rcases hbelow with
          ⟨left, he, hrest⟩ | ⟨f, he, rfl, rfl⟩ | ⟨target, fewer, he, rfl, hrest⟩
        · obtain ⟨entries, he⟩ := hleaf.of_prune_folder he
          rw [follow_folder hpart hsize he]
          exact ih hrest
        · exact follow_file hpart hsize (hleaf.of_prune_file he).2
        · rw [follow_link hpart hsize (hleaf.of_prune_link he)]
          exact ihlinks fewer (Nat.lt_succ_self _) hrest

variable {part : String} {f : SourceFile}

theorem exists_file_of_follow (hleaf : FileLeaf tree names) (hon : GoesOn tree here)
    (hnames : here ++ [part] = names) (hpart : part ∉ ["", ".", ".."])
    (h : follow tree false links here (part :: parts) = .ok there) :
    ∃ f, tree.below? there = some (.file f) := by
  rcases follow_cons_eq_ok h with ⟨hstay, -⟩ | ⟨rfl, -⟩ | ⟨-, -, hbelow⟩
  · simp_all
  · simp at hpart
  · rw [GoesBy, hnames] at hbelow
    rcases hbelow with ⟨entries, he, -⟩ | ⟨f, he, -, rfl⟩ | ⟨target, fewer, he, -, hrest⟩
    · exact absurd he hleaf.leaf.not_folder
    · exact ⟨f, he⟩
    · obtain ⟨mid, n, -, hmid, hend, hgoes⟩ := exists_leads_of_follow hrest
      have hhere : LinkLeads tree names mid n := by
        refine ⟨target, he, ?_⟩
        rw [← hnames, List.dropLast_concat]
        exact hmid
      rcases hleaf.entry with ⟨f, hf⟩ | ⟨last, m, f, hlast, hf⟩
      · rw [he] at hf
        cases hf
      · -- the link leads to a file, so that nothing can be left of the way
        obtain ⟨rfl, -⟩ := hlast.unique hhere
        by_cases hparts : parts = []
        · rw [hparts, follow] at hend
          exact ⟨f, Except.ok.inj hend ▸ hf⟩
        · exact absurd hf (hgoes hparts (hon.linkStart target) _ (List.prefix_refl _) f)

theorem follow_prune_of_folder (hleaf : FileLeaf tree names) (hon : GoesOn tree here)
    (h : follow tree false links here parts = .ok there)
    (hfolder : tree.below? there = some (.folder entries)) :
    follow (tree.prune names []) false links here parts = .ok there := by
  induction links using Nat.strongRecOn generalizing here parts with
  | ind links ihlinks =>
    induction parts generalizing here with
    | nil =>
      rw [follow] at h ⊢
      exact h
    | cons part parts ih =>
      rcases follow_cons_eq_ok h with ⟨hstay, hrest⟩ | ⟨rfl, hrest⟩ | ⟨hpart, hsize, hbelow⟩
      · rw [follow_stay hstay]
        exact ih hon hrest
      · rw [follow_up]
        exact ih (hon.of_isPrefix (List.dropLast_prefix here)) hrest
      · have hnames : here ++ [part] ≠ names := by
          intro hnames
          obtain ⟨f, hf⟩ := exists_file_of_follow hleaf hon hnames hpart h
          rw [hfolder] at hf
          cases hf
        rcases hbelow with
          ⟨entries, he, hrest⟩ | ⟨f, he, rfl, rfl⟩ | ⟨target, fewer, he, rfl, hrest⟩
        · rw [follow_folder hpart hsize (hleaf.leaf.prune_folder he)]
          exact ih (hon.child he) hrest
        · exact follow_file hpart hsize (hleaf.leaf.prune_file hnames he)
        · rw [follow_link hpart hsize (hleaf.leaf.prune_link hnames he)]
          exact ihlinks fewer (Nat.lt_succ_self _) (hon.linkStart target) hrest

theorem follow_prune_of_file (hleaf : Leaf tree names) (hparts : ∀ p ∈ parts, PlainPart p)
    (he : tree.below? (here ++ parts) = some (.file f)) (hne : here ++ parts ≠ names) :
    follow (tree.prune names []) false links here parts = follow tree false links here parts := by
  induction parts generalizing here with
  | nil => rw [follow, follow]
  | cons part parts ih =>
    obtain ⟨hplain, hparts⟩ := List.forall_mem_cons.mp hparts
    have hpart : part ∉ ["", ".", ".."] := by
      simp [hplain.ne_empty, hplain.ne_dot, hplain.ne_dots]
    rw [← List.singleton_append, ← List.append_assoc] at he hne
    by_cases hsize : part.utf8ByteSize ≤ nameLimit
    · cases parts with
      | nil =>
        rw [List.append_nil] at he hne
        rw [follow_file hpart hsize he, follow_file hpart hsize (hleaf.prune_file hne he)]
      | cons next parts =>
        obtain ⟨entries, hfolder⟩ := Entry.exists_folder he
        rw [follow_folder hpart hsize hfolder,
          follow_folder hpart hsize (hleaf.prune_folder hfolder)]
        exact ih hparts he hne
    · rw [follow_long hpart (Nat.lt_of_not_le hsize), follow_long hpart (Nat.lt_of_not_le hsize)]

theorem follow_cons_of_plain (hpart : PlainPart part)
    (h : follow tree false links here (part :: parts) = .ok there) :
    GoesBy tree links here part parts there := by
  rcases follow_cons_eq_ok h with ⟨hstay, -⟩ | ⟨hup, -⟩ | ⟨-, -, hbelow⟩
  · exact absurd hstay (not_or.mpr ⟨hpart.ne_empty, hpart.ne_dot⟩)
  · exact absurd hup hpart.ne_dots
  · exact hbelow

theorem follow_of_folders {rest : List String} (hparts : ∀ p ∈ parts, PlainPart p)
    (he : tree.below? (here ++ parts) = some (.folder entries))
    (h : follow tree false links here (parts ++ rest) = .ok there) :
    follow tree false links (here ++ parts) rest = .ok there := by
  induction parts generalizing here with
  | nil =>
    rw [List.append_nil]
    exact h
  | cons part parts ih =>
    obtain ⟨hplain, hparts⟩ := List.forall_mem_cons.mp hparts
    rw [← List.singleton_append, ← List.append_assoc] at he ⊢
    have hfolder : ∃ entries, tree.below? (here ++ [part]) = some (.folder entries) := by
      cases parts with
      | nil => exact ⟨entries, List.append_nil (here ++ [part]) ▸ he⟩
      | cons next parts => exact Entry.exists_folder he
    obtain ⟨_, hfolder⟩ := hfolder
    have hbelow := follow_cons_of_plain hplain h
    rw [GoesBy, hfolder] at hbelow
    rcases hbelow with ⟨_, -, hrest⟩ | ⟨_, hfile, -⟩ | ⟨_, _, hlink, -⟩
    · exact ih hparts he hrest
    · cases hfile
    · cases hlink

theorem eq_of_follow_file (hpart : PlainPart part)
    (he : tree.below? (here ++ [part]) = some (.file f))
    (h : follow tree false links here [part] = .ok there) : there = here ++ [part] := by
  have hbelow := follow_cons_of_plain hpart h
  rw [GoesBy, he] at hbelow
  rcases hbelow with ⟨_, hfolder, -⟩ | ⟨_, -, -, hthere⟩ | ⟨_, _, hlink, -⟩
  · cases hfolder
  · exact hthere
  · cases hlink

end Ways

/-! ## The workspace without a file -/

/-- The workspace without an entry. -/
def Workspace.without (w : Workspace) (f : Path) : Workspace :=
  { w with tree := w.tree.prune f.parts [] }

namespace Workspace

variable {w : Workspace} {f g p : Path} {names : List String}

theorem start_without (p : Path) : (w.without f).start p = w.start p := rfl

theorem locate_eq_ok_iff : w.locate false p = .ok names ↔
    p.hasNull = false ∧ p.text.utf8ByteSize < pathLimit ∧
      follow w.tree false linkBudget (w.start p) p.parts = .ok names := by
  unfold locate
  by_cases hnull : p.hasNull = true
  · simp [hnull]
  · by_cases hlong : pathLimit ≤ p.text.utf8ByteSize
    · simp [hnull, hlong, Nat.not_lt.mpr hlong]
    · simp [hnull, hlong, Nat.lt_of_not_le hlong]

theorem locate_of_without (hleaf : Leaf w.tree f.parts)
    (h : (w.without f).locate false p = .ok names) : w.locate false p = .ok names := by
  obtain ⟨hnull, hlong, hfollow⟩ := locate_eq_ok_iff.mp h
  exact locate_eq_ok_iff.mpr ⟨hnull, hlong, follow_of_prune hleaf hfollow⟩

namespace Lists

theorem start_eq (h : w.Lists g) : w.start g = [] := by
  refine start_of_isAbsolute ?_
  rw [Path.isAbsolute, h.root]
  rfl

theorem exists_below? (h : w.Lists g) : ∃ e, w.tree.below? g.parts = some e := by
  rcases h.entry with ⟨f, hf⟩ | ⟨⟨target, htarget⟩, -⟩
  · exact ⟨_, hf⟩
  · exact ⟨_, htarget⟩

theorem plain (h : w.Lists g) (hnamed : w.tree.WellNamed) : ∀ part ∈ g.parts, PlainPart part := by
  obtain ⟨e, he⟩ := h.exists_below?
  exact (hnamed.of_below? he).2

theorem exists_folder (h : w.Lists g) (hne : g.parts ≠ []) :
    ∃ here part entries, g.parts = here ++ [part] ∧
      w.tree.below? here = some (.folder entries) := by
  obtain ⟨here, part, hparts⟩ := (List.eq_nil_or_concat' g.parts).resolve_left hne
  obtain ⟨e, he⟩ := h.exists_below?
  rw [hparts] at he
  obtain ⟨entries, hfolder⟩ := Entry.exists_folder he
  exact ⟨here, part, entries, hparts, hfolder⟩

/-- A listed path that leads somewhere leads there from the folder that it stands in. -/
theorem follow_last (h : w.Lists g) (hnamed : w.tree.WellNamed) {here : List String} {part : String}
    (hparts : g.parts = here ++ [part])
    (hfolder : w.tree.below? here = some (.folder entries))
    (hlocate : w.locate false g = .ok names) :
    follow w.tree false linkBudget here [part] = .ok names := by
  obtain ⟨-, -, hfollow⟩ := locate_eq_ok_iff.mp hlocate
  rw [h.start_eq, hparts] at hfollow
  have hplain : ∀ p ∈ here, PlainPart p := fun p hp =>
    h.plain hnamed p (hparts ▸ List.mem_append_left _ hp)
  exact follow_of_folders hplain ((List.nil_append here).symm ▸ hfolder) hfollow

theorem fileLeaf (h : w.Lists g) (hnamed : w.tree.WellNamed) (hne : g.parts ≠ []) :
    FileLeaf w.tree g.parts := by
  refine ⟨hne, h.entry.imp_right ?_⟩
  rintro ⟨⟨target, htarget⟩, hfile⟩
  obtain ⟨f, hf⟩ := isFile_iff.mp hfile
  obtain ⟨there, hlocate, hthere⟩ := entry_eq_ok_iff.mp hf
  obtain ⟨here, part, entries, hparts, hfolder⟩ := h.exists_folder hne
  have hplain : PlainPart part := h.plain hnamed part (by simp [hparts])
  have hbelow := follow_cons_of_plain hplain (h.follow_last hnamed hparts hfolder hlocate)
  rw [GoesBy, ← hparts, htarget] at hbelow
  rcases hbelow with ⟨_, hno, -⟩ | ⟨_, hno, -⟩ | ⟨target, fewer, heq, -, hrest⟩
  · cases hno
  · cases hno
  · obtain ⟨mid, n, -, hmid, hend, -⟩ := exists_leads_of_follow hrest
    rw [follow] at hend
    obtain rfl := Except.ok.inj hend
    refine ⟨mid, n, f, ⟨target, htarget.trans heq, ?_⟩, hthere⟩
    rw [hparts, List.dropLast_concat]
    exact hmid

theorem eq_of_locate (h : w.Lists g) (hnamed : w.tree.WellNamed) {s : SourceFile}
    (hs : w.tree.below? g.parts = some (.file s)) (hlocate : w.locate false g = .ok names) :
    names = g.parts := by
  by_cases hne : g.parts = []
  · obtain ⟨-, -, hfollow⟩ := locate_eq_ok_iff.mp hlocate
    rw [h.start_eq, hne, follow] at hfollow
    rw [hne, Except.ok.inj hfollow]
  · obtain ⟨here, part, entries, hparts, hfolder⟩ := h.exists_folder hne
    have hplain : PlainPart part := h.plain hnamed part (by simp [hparts])
    rw [hparts] at hs ⊢
    exact eq_of_follow_file hplain hs (h.follow_last hnamed hparts hfolder hlocate)

end Lists

/-- Every link but the entry itself that leads to a file does so without the entry. -/
def SparesLinks (w : Workspace) (f : Path) : Prop :=
  ∀ g : Path, g.root = "/" → g.parts ≠ f.parts →
    (∃ target, w.tree.below? g.parts = some (.link target)) →
    w.isFile g = true → (w.without f).isFile g = true

section Without

variable (hnamed : w.tree.WellNamed) (hleaf : FileLeaf w.tree f.parts) (hspares : w.SparesLinks f)

include hleaf in
theorem entry_of_without {s : SourceFile} (h : (w.without f).entry p = .ok (.file s)) :
    w.entry p = .ok (.file s) := by
  obtain ⟨names, hlocate, he⟩ := entry_eq_ok_iff.mp h
  exact entry_eq_ok_iff.mpr
    ⟨names, locate_of_without hleaf.leaf hlocate, (hleaf.leaf.of_prune_file he).2⟩

include hleaf hspares in
theorem isFile_without (hroot : g.root = "/") (hne : g.parts ≠ f.parts) {target : String}
    (hlink : w.tree.below? g.parts = some (.link target)) :
    (w.without f).isFile g = w.isFile g := by
  rw [Bool.eq_iff_iff]
  constructor
  · intro h
    obtain ⟨s, hs⟩ := isFile_iff.mp h
    exact isFile_iff.mpr ⟨s, entry_of_without hleaf hs⟩
  · exact hspares g hroot hne ⟨target, hlink⟩

include hnamed hleaf hspares in
/-- **Another listed path** reads as before. -/
theorem file_without (h : w.Lists g) (hne : g.parts ≠ f.parts) :
    (w.without f).file g = w.file g := by
  rcases h.entry with ⟨s, hs⟩ | ⟨⟨target, htarget⟩, hfile⟩
  · have hlocate : (w.without f).locate false g = w.locate false g := by
      unfold locate
      rw [start_without, h.start_eq]
      exact if_congr Iff.rfl rfl (if_congr Iff.rfl rfl
        (follow_prune_of_file hleaf.leaf (h.plain hnamed) hs hne))
    cases hnames : w.locate false g with
    | error fault => rw [file, file, entry, entry, hlocate, hnames]; rfl
    | ok names =>
      obtain rfl := h.eq_of_locate hnamed hs hnames
      have hleft : (w.without f).entry g = .ok (.file s) :=
        entry_eq_ok_iff.mpr ⟨_, hlocate.trans hnames, hleaf.leaf.prune_file hne hs⟩
      rw [file_eq_ok_iff.mpr hleft, file_eq_ok_iff.mpr (entry_of_without hleaf hleft)]
  · obtain ⟨s, hs⟩ := isFile_iff.mp (hspares g h.root hne ⟨target, htarget⟩ hfile)
    rw [file_eq_ok_iff.mpr hs, file_eq_ok_iff.mpr (entry_of_without hleaf hs)]

include hnamed hleaf hspares in
/-- **Another listed path that can be read** is seen from the repository as before. -/
theorem relative_without (repo : Path) (h : w.Lists g) (hne : g.parts ≠ f.parts) {s : SourceFile}
    (hs : w.file g = .ok s) : (w.without f).relative repo g = w.relative repo g := by
  have habsolute : g.isAbsolute = true := by
    rw [Path.isAbsolute, h.root]
    rfl
  have hleft : (w.without f).file g = .ok s := (file_without hnamed hleaf hspares h hne).trans hs
  obtain ⟨names, hlocate, -⟩ := entry_eq_ok_iff.mp (file_eq_ok_iff.mp hleft)
  unfold relative
  rw [resolve_of_locate habsolute hlocate,
    resolve_of_locate habsolute (locate_of_without hleaf.leaf hlocate)]

include hleaf in
theorem rootAt?_without {repo root : Path} (hrepo : repo.isAbsolute = true) {text : String}
    (h : w.rootAt? repo text = .ok (some root))
    (hentry : w.entry root = .ok (.folder entries)) :
    (w.without f).rootAt? repo text = .ok (some root) := by
  obtain ⟨q, hq, hlocate, -, hroot, hheld⟩ := held_of_rootAt? hrepo h
  have hfolder := (locate_of_held hroot hheld hentry).2
  obtain ⟨hnull, hlong, hfollow⟩ := locate_eq_ok_iff.mp hlocate
  have hstart : w.start (repo.join q) = [] := start_of_isAbsolute (Path.isAbsolute_join hrepo q)
  have hleft : (w.without f).locate false (repo.join q) = .ok root.parts := by
    refine locate_eq_ok_iff.mpr ⟨hnull, hlong, ?_⟩
    rw [start_without, hstart]
    rw [hstart] at hfollow
    exact follow_prune_of_folder hleaf hleaf.leaf.goesOn_top hfollow hfolder
  have hpath : root = { root := "/", parts := root.parts } := by rw [← hroot]
  have hhome : (Path.ofText text).expanded (w.without f).homes = .ok q := hq
  rw [rootAt?_of_locate hrepo hhome hleft (hleaf.leaf.prune_folder hfolder), ← hpath]

end Without

end Workspace

/-! ## Paths without a file -/

section Links

variable {tree left : Entry}

theorem Resolution.take_congr (h : ∀ ns target,
      left.below? ns = some (.link target) ↔ tree.below? ns = some (.link target))
    (r : Resolution) (name : String) (rest : List ResolutionStep) :
    r.take left name rest = r.take tree name rest := by
  unfold take
  dsimp only
  split_ifs
  · rfl
  · rfl
  · split
    · rename_i target hlink
      rw [(h _ _).mp hlink]
    · rename_i hother
      split
      · rename_i target hlink
        exact absurd ((h _ _).mpr hlink) (hother target)
      · rfl

theorem Resolution.run_congr (h : ∀ ns target,
      left.below? ns = some (.link target) ↔ tree.below? ns = some (.link target))
    (fuel : Nat) (r : Resolution) : run left fuel r = run tree fuel r := by
  induction fuel generalizing r with
  | zero => rfl
  | succ fuel ih =>
    obtain ⟨here, todo, met⟩ := r
    cases todo with
    | nil => rw [run_done, run_done]
    | cons step rest =>
      cases step with
      | followed link => exact ih _
      | part name =>
        show run left fuel (take left _ name rest) = run tree fuel (take tree _ name rest)
        rw [take_congr h, ih]

end Links

section File

variable {tree : Entry} {names ns : List String} {s : SourceFile}

theorem Leaf.of_file (hne : names ≠ []) (hs : tree.below? names = some (.file s)) :
    Leaf tree names := ⟨hne, _, hs, nofun⟩

theorem below?_prune_link_iff (hne : names ≠ []) (hs : tree.below? names = some (.file s))
    {target : String} :
    (tree.prune names []).below? ns = some (.link target) ↔
      tree.below? ns = some (.link target) := by
  have hleaf := Leaf.of_file hne hs
  constructor
  · exact hleaf.of_prune_link
  · intro h
    refine hleaf.prune_link ?_ h
    rintro rfl
    rw [hs] at h
    cases h

theorem follow_ne_linkLoop {links : Nat} {here rest : List String} {part : String}
    (hpart : part ∉ ["", ".", ".."])
    (hfolder : ∀ entries, tree.below? (here ++ [part]) ≠ some (.folder entries))
    (hlink : ∀ target, tree.below? (here ++ [part]) ≠ some (.link target)) :
    follow tree false links here (part :: rest) ≠ .error .linkLoop := by
  obtain ⟨hstay, hup⟩ := not_stay_of_notMem hpart
  rw [follow, if_neg hstay, if_neg hup, if_neg (by simp)]
  cases hbelow : tree.below? (here ++ [part]) with
  | none => split_ifs <;> simp
  | some e =>
    cases e with
    | folder entries => exact absurd hbelow (hfolder entries)
    | link target => exact absurd hbelow (hlink target)
    | file f => split_ifs <;> simp

theorem follow_prune_linkLoop_iff (hne : names ≠ []) (hs : tree.below? names = some (.file s))
    {links : Nat} {here parts : List String} :
    follow (tree.prune names []) false links here parts = .error .linkLoop ↔
      follow tree false links here parts = .error .linkLoop := by
  have hleaf := Leaf.of_file hne hs
  induction links using Nat.strongRecOn generalizing here parts with
  | ind links ihlinks =>
    induction parts generalizing here with
    | nil => rw [follow, follow]
    | cons part parts ih =>
      by_cases hstay : part = "" ∨ part = "."
      · rw [follow_stay hstay, follow_stay hstay]
        exact ih
      by_cases hup : part = ".."
      · rw [hup, follow_up, follow_up]
        exact ih
      have hpart : part ∉ ["", ".", ".."] := by simp_all
      by_cases hsize : part.utf8ByteSize ≤ nameLimit
      · by_cases hfolder : ∃ entries, tree.below? (here ++ [part]) = some (.folder entries)
        · obtain ⟨entries, hfolder⟩ := hfolder
          rw [follow_folder hpart hsize hfolder,
            follow_folder hpart hsize (hleaf.prune_folder hfolder)]
          exact ih
        by_cases hlink : ∃ target, tree.below? (here ++ [part]) = some (.link target)
        · obtain ⟨target, hlink⟩ := hlink
          have hleft := (below?_prune_link_iff hne hs).mpr hlink
          cases links with
          | zero => rw [follow_noLinks hpart hsize hlink, follow_noLinks hpart hsize hleft]
          | succ fewer =>
            rw [follow_link hpart hsize hlink, follow_link hpart hsize hleft]
            exact ihlinks fewer (Nat.lt_succ_self _)
        · refine iff_of_false (follow_ne_linkLoop hpart (fun left h => ?_) fun target h => ?_)
            (follow_ne_linkLoop hpart (not_exists.mp hfolder) (not_exists.mp hlink))
          · exact hfolder (hleaf.of_prune_folder h)
          · exact hlink ⟨target, hleaf.of_prune_link h⟩
      · rw [follow_long hpart (Nat.lt_of_not_le hsize), follow_long hpart (Nat.lt_of_not_le hsize)]

end File

namespace Workspace

variable {w : Workspace} {f p : Path} {s : SourceFile}

theorem resolvedNames_without (hne : f.parts ≠ []) (hs : w.tree.below? f.parts = some (.file s))
    (p : Path) : (w.without f).resolvedNames p = w.resolvedNames p := by
  have hsteps : ∀ tree : Entry, Resolution.stepsLeft tree
      { here := w.start p, todo := p.parts.map .part } ≤ p.parts.length + tree.linkSteps + 1 := by
    intro tree
    rw [Resolution.stepsLeft, List.length_map, openSteps_nil]
    exact Nat.le_succ _
  have hlinks : ∀ ns target, (w.without f).tree.below? ns = some (.link target) ↔
      w.tree.below? ns = some (.link target) := fun ns target => below?_prune_link_iff hne hs
  -- both runs have fuel to spare, so that they can be given the same
  unfold resolvedNames
  rw [start_without, ← Resolution.run_of_stepsLeft_le (hsteps (w.without f).tree)
      (p.parts.length + w.tree.linkSteps + 1),
    Resolution.run_congr hlinks, Nat.add_comm, Resolution.run_of_stepsLeft_le (hsteps w.tree)]

/-- **Without a file, every path is resolved as before**: what is not there is kept. -/
theorem resolve_without (hne : f.parts ≠ []) (hs : w.tree.below? f.parts = some (.file s))
    (p : Path) : (w.without f).resolve p = w.resolve p := by
  have hloop : ∀ p, (w.without f).locate false p = .error .linkLoop ↔
      w.locate false p = .error .linkLoop := by
    intro p
    unfold locate
    by_cases hnull : p.hasNull = true
    · rw [if_pos hnull, if_pos hnull]
    · rw [if_neg hnull, if_neg hnull]
      by_cases hlong : pathLimit ≤ p.text.utf8ByteSize
      · rw [if_pos hlong, if_pos hlong]
      · rw [if_neg hlong, if_neg hlong]
        exact follow_prune_linkLoop_iff hne hs
  unfold resolve
  rw [resolvedNames_without hne hs]
  dsimp only
  split_ifs
  · rfl
  · split
    · rename_i h
      rw [(hloop _).mp h]
    · rename_i hother
      split
      · rename_i h
        exact absurd ((hloop _).mpr h) hother
      · rfl

theorem relative_without_file (hne : f.parts ≠ []) (hs : w.tree.below? f.parts = some (.file s))
    (repo p : Path) : (w.without f).relative repo p = w.relative repo p := by
  rw [relative, relative, resolve_without hne hs]

end Workspace

/-! ## The search without the entry -/

namespace Entry

variable {names here : List String}

def pruneOne? (names here : List String) (x : String × Entry) : Option (String × Entry) :=
  if here ++ [x.1] = names then none else some (x.1, x.2.prune names (here ++ [x.1]))

theorem pruneAll_eq (names here : List String) (entries : List (String × Entry)) :
    pruneAll names here entries = entries.filterMap (pruneOne? names here) := by
  induction entries with
  | nil => rfl
  | cons x entries ih =>
    rw [pruneAll, List.filterMap_cons, pruneOne?, ih]
    split_ifs <;> rfl

theorem fst_of_pruneOne? {x y : String × Entry} (h : pruneOne? names here x = some y) :
    y.1 = x.1 := by
  unfold pruneOne? at h
  split_ifs at h
  rw [← Option.some.inj h]

theorem keys_pruneAll_sublist (names here : List String) (entries : List (String × Entry)) :
    (Table.keys (pruneAll names here entries)).Sublist (Table.keys entries) := by
  induction entries with
  | nil => exact .slnil
  | cons x entries ih =>
    rw [pruneAll]
    split_ifs
    · exact ih.cons _
    · exact ih.cons_cons _

end Entry

namespace Discovery

variable {names here : List String}

theorem pairwise_byName (entries : List (String × Entry)) :
    (byName entries).Pairwise fun a b => a.1 ≤ b.1 := by
  have hsorted : (byName entries).Pairwise fun a b => decide (a.1 ≤ b.1) = true := by
    refine List.pairwise_mergeSort (fun a b c hab hbc => ?_) (fun a b => ?_) entries
    · exact decide_eq_true (String.le_trans (of_decide_eq_true hab) (of_decide_eq_true hbc))
    · simpa using String.le_total a.1 b.1
  exact hsorted.imp of_decide_eq_true

theorem byName_pruneAll (hdistinct : (Table.keys entries).Nodup) (names here : List String) :
    byName (Entry.pruneAll names here entries) = Entry.pruneAll names here (byName entries) := by
  have hperm : (byName (Entry.pruneAll names here entries)).Perm
      (Entry.pruneAll names here (byName entries)) := by
    refine (byName_perm _).trans ?_
    rw [Entry.pruneAll_eq, Entry.pruneAll_eq]
    exact ((byName_perm entries).filterMap _).symm
  have hleft : (Table.keys (Entry.pruneAll names here entries)).Nodup :=
    hdistinct.sublist (Entry.keys_pruneAll_sublist names here entries)
  -- of one name there is one entry
  have hone : ∀ a b, a ∈ byName (Entry.pruneAll names here entries) →
      b ∈ Entry.pruneAll names here (byName entries) → a.1 ≤ b.1 → b.1 ≤ a.1 → a = b := by
    intro a b ha hb hab hba
    have ha' := (byName_perm _).mem_iff.mp ha
    have hb' := (byName_perm _).mem_iff.mp (hperm.mem_iff.mpr hb)
    exact List.inj_on_of_nodup_map hleft ha' hb' (String.le_antisymm hab hba)
  have horder : (Entry.pruneAll names here (byName entries)).Pairwise fun a b => a.1 ≤ b.1 := by
    rw [Entry.pruneAll_eq]
    refine (pairwise_byName entries).filterMap _ fun x y hxy x' hx y' hy => ?_
    rw [Entry.fst_of_pruneOne? hx, Entry.fst_of_pruneOne? hy]
    exact hxy
  exact hperm.eq_of_pairwise hone (pairwise_byName _) horder

section Search

variable {w : Workspace} {d : Discovery} {repo f folder : Path}
  (hleaf : FileLeaf w.tree f.parts) (hspares : w.SparesLinks f) (hroot : folder.root = f.root)
  (hf : f.root = "/")

include hleaf hspares hroot hf in
theorem lists_prune {name : String} {e : Entry} (hne : folder.parts ++ [name] ≠ f.parts)
    (he : w.tree.below? (folder.parts ++ [name]) = some e) :
    d.lists (w.without f) repo (folder.child name)
        (e.prune f.parts (folder.parts ++ [name])) = d.lists w repo (folder.child name) e := by
  cases e with
  | file s => rfl
  | folder below => rfl
  | link target =>
    have hfile : (w.without f).isFile (folder.child name) = w.isFile (folder.child name) :=
      Workspace.isFile_without hleaf hspares (hroot.trans hf) hne he
    simp only [Entry.prune, lists, hfile]

theorem child_eq_iff (hroot : folder.root = f.root) (name : String) :
    folder.child name = f ↔ folder.parts ++ [name] = f.parts := by
  obtain ⟨root, parts⟩ := f
  constructor
  · intro h
    exact congrArg Path.parts h
  · intro h
    obtain rfl : folder.root = root := hroot
    rw [Path.child, h]

def fileAt? (d : Discovery) (w : Workspace) (repo folder : Path) (x : String × Entry) :
    Option Path :=
  if !d.excludes ((folder.child x.1).under repo) && d.lists w repo (folder.child x.1) x.2 then
    some (folder.child x.1)
  else none

theorem filesIn_eq (entries : List (String × Entry)) :
    d.filesIn w repo folder entries = entries.filterMap (d.fileAt? w repo folder) := rfl

include hleaf hspares hroot hf in
theorem filesIn_prune
    (hentries : ∀ x ∈ entries, w.tree.below? (folder.parts ++ [x.1]) = some x.2) :
    d.filesIn (w.without f) repo folder (Entry.pruneAll f.parts folder.parts entries) =
      (d.filesIn w repo folder entries).filter (· ≠ f) := by
  rw [filesIn_eq, filesIn_eq, Entry.pruneAll_eq, List.filterMap_filterMap, List.filter_filterMap]
  refine List.filterMap_congr fun x hx => ?_
  have hchild := child_eq_iff hroot x.1
  by_cases hne : folder.parts ++ [x.1] = f.parts
  · rw [Entry.pruneOne?, if_pos hne, fileAt?]
    split_ifs
    · simp [Option.filter, hchild.mpr hne]
    · rfl
  · rw [Entry.pruneOne?, if_neg hne, Option.bind_some, fileAt?, fileAt?]
    rw [lists_prune hleaf hspares hroot hf hne (hentries x hx)]
    split_ifs
    · simp [Option.filter, mt hchild.mp hne]
    · rfl

include hleaf in
theorem folders_prune
    (hentries : ∀ x ∈ entries, w.tree.below? (folder.parts ++ [x.1]) = some x.2) :
    (Entry.pruneAll f.parts folder.parts entries).filterMap (d.folderAt? repo folder) =
      (entries.filterMap (d.folderAt? repo folder)).map fun x =>
        (x.1, Entry.pruneAll f.parts x.1.parts x.2) := by
  rw [Entry.pruneAll_eq, List.filterMap_filterMap, List.map_filterMap]
  refine List.filterMap_congr fun x hx => ?_
  obtain ⟨name, e⟩ := x
  cases e with
  | file s =>
    unfold Entry.pruneOne?
    split_ifs <;> rfl
  | link target =>
    unfold Entry.pruneOne?
    split_ifs <;> rfl
  | folder below =>
    have hne : folder.parts ++ [name] ≠ f.parts := by
      intro heq
      exact hleaf.leaf.not_folder (heq ▸ hentries _ hx)
    rw [Entry.pruneOne?, if_neg hne, Option.bind_some]
    simp only [Entry.prune, folderAt?]
    split_ifs <;> rfl

include hleaf hspares hf in
/-- **The walk without the entry** lists all other paths. -/
theorem walk_prune (hnamed : w.tree.WellNamed) {stack : List (Path × List (String × Entry))}
    (hstack : Stands w stack) :
    d.walk (w.without f) repo
        (stack.map fun x => (x.1, Entry.pruneAll f.parts x.1.parts x.2)) =
      (d.walk w repo stack).filter (· ≠ f) := by
  induction stack using walk.induct d repo with
  | case1 => rw [List.map_nil, walk, walk, List.filter_nil]
  | case2 folder entries rest sorted ih =>
    obtain ⟨⟨hroot, hfolder⟩, -⟩ := List.forall_mem_cons.mp hstack
    have hdistinct := hnamed.distinct hfolder
    have hentries : ∀ x ∈ byName entries,
        w.tree.below? (folder.parts ++ [x.1]) = some x.2 := fun x hx =>
      hnamed.below?_child hfolder ((byName_perm entries).mem_iff.mp hx)
    have hnext := ih (hstack.next hnamed)
    rw [List.map_cons, walk, walk, byName_pruneAll hdistinct, List.filter_append,
      filesIn_prune hleaf hspares (hroot.trans hf.symm) hf hentries, folders_prune hleaf hentries,
      ← List.map_append, hnext]

end Search

end Discovery

/-- **A search without the entry** lists all other paths. -/
theorem Workspace.discover_without {w : Workspace} {f root repo : Path} {d : Discovery}
    (hnamed : w.tree.WellNamed) (hleaf : FileLeaf w.tree f.parts) (hspares : w.SparesLinks f)
    (hf : f.root = "/") (hroot : root.root = "/") (hheld : Held w.tree root.parts)
    (hentry : w.entry root = .ok (.folder entries)) :
    (w.without f).discover root repo d = (w.discover root repo d).filter (· ≠ f) := by
  obtain ⟨hlocate, hfolder⟩ := locate_of_held hroot hheld hentry
  have hleft : (w.without f).entry root =
      .ok (.folder (Entry.pruneAll f.parts root.parts entries)) := by
    refine entry_eq_ok_iff.mpr ⟨root.parts, ?_, hleaf.leaf.prune_folder hfolder⟩
    obtain ⟨hnull, hlong, hfollow⟩ := locate_eq_ok_iff.mp hlocate
    refine locate_eq_ok_iff.mpr ⟨hnull, hlong, ?_⟩
    have hstart : w.start root = [] := start_of_isAbsolute (by rw [Path.isAbsolute, hroot]; rfl)
    rw [start_without, hstart]
    rw [hstart] at hfollow
    exact follow_prune_of_folder hleaf hleaf.leaf.goesOn_top hfollow hfolder
  have hstands : Discovery.Stands w [(root, entries)] :=
    List.forall_mem_singleton.mpr ⟨hroot, hfolder⟩
  rw [discover, discover, hentry, hleft]
  exact Discovery.walk_prune hleaf hspares hf hnamed hstands

end CodeAtlas
