import CodeAtlas.Proofs.Assembly.RelativeImport
import CodeAtlas.Proofs.Files.Resolving

/-!
# The paths that a search lists

In a tree whose names are distinct and mean themselves, the text of a path from the top means that
path, so a listed path resolves.

* **`Workspace.lists_of_mem_discover`**, **`Workspace.nodup_discover`**: what a search lists.
-/

namespace CodeAtlas

/-- The names of the entries of every folder are distinct and mean themselves. -/
inductive Entry.WellNamed : Entry → Prop
  | file (f : SourceFile) : WellNamed (.file f)
  | link (target : String) : WellNamed (.link target)
  | folder {entries : List (String × Entry)} (distinct : (Table.keys entries).Nodup)
      (plain : ∀ x ∈ entries, PlainPart x.1) (below : ∀ x ∈ entries, x.2.WellNamed) :
      WellNamed (.folder entries)

namespace Entry.WellNamed

variable {tree e : Entry} {names : List String} {entries : List (String × Entry)}

theorem of_below? (h : tree.WellNamed) (he : tree.below? names = some e) :
    e.WellNamed ∧ ∀ name ∈ names, PlainPart name := by
  induction names generalizing tree with
  | nil =>
    obtain rfl := Option.some.inj he
    exact ⟨h, List.forall_mem_nil _⟩
  | cons name names ih =>
    cases h with
    | file f => cases he
    | link target => cases he
    | folder distinct plain below =>
      obtain ⟨child, hchild, he⟩ := Option.bind_eq_some_iff.mp he
      obtain ⟨x, hx, rfl⟩ := Option.map_eq_some_iff.mp hchild
      have hname : x.1 = name := by simpa using List.find?_some hx
      have hmem := List.mem_of_find?_eq_some hx
      obtain ⟨hwell, hplain⟩ := ih (below x hmem) he
      exact ⟨hwell, List.forall_mem_cons.mpr ⟨hname ▸ plain x hmem, hplain⟩⟩

theorem distinct (h : tree.WellNamed) (hfolder : tree.below? names = some (.folder entries)) :
    (Table.keys entries).Nodup := by
  cases (h.of_below? hfolder).1 with
  | folder distinct => exact distinct

theorem below?_child (h : tree.WellNamed)
    (hfolder : tree.below? names = some (.folder entries)) {name : String}
    (hmem : (name, e) ∈ entries) : tree.below? (names ++ [name]) = some e := by
  rw [below?_append, hfolder, Option.bind_some, below?,
    Table.get?_of_mem (h.distinct hfolder) hmem]
  rfl

end Entry.WellNamed

theorem Held.plain {tree : Entry} {names : List String} (h : Held tree names)
    (hnamed : tree.WellNamed) : ∀ name ∈ names, PlainPart name := by
  cases h with
  | top => exact List.forall_mem_nil _
  | child _ _ _ he _ => exact (hnamed.of_below? he).2

theorem filter_plainParts {parts : List String} (hparts : ∀ q ∈ parts, PlainPart q) :
    parts.filter (fun q => q != "" && q != ".") = parts :=
  List.filter_eq_self.mpr fun q hq => by simp [(hparts q hq).ne_empty, (hparts q hq).ne_dot]

theorem Path.ofText_text {p : Path} (hroot : p.root = "/") (hparts : ∀ q ∈ p.parts, PlainPart q) :
    Path.ofText p.text = p := by
  obtain ⟨root, parts⟩ := p
  obtain rfl : root = "/" := hroot
  have htext : (⟨"/", parts⟩ : Path).text = "/" ++ Text.joinWith "/" parts := by
    have hne : ("/" ++ Text.joinWith "/" parts).isEmpty = false := by simp
    change (if ("/" ++ Text.joinWith "/" parts).isEmpty then "." else _) = _
    rw [hne]
    rfl
  rw [htext]
  cases parts with
  | nil => decide
  | cons part parts =>
    obtain ⟨c, cs, hcs, hc⟩ := Text.exists_first (hparts part List.mem_cons_self).ne_empty
      (hparts part List.mem_cons_self).no_slash parts
    have hrootOf : Path.rootOf ("/" ++ Text.joinWith "/" (part :: parts)) = "/" := by
      have hslash : "/".toList = ['/'] := rfl
      rw [Path.rootOf, String.toList_append, hcs, hslash]
      simp [hc]
    have hsplit : Text.splitOn '/' ("/" ++ Text.joinWith "/" (part :: parts)) =
        "" :: part :: parts := by
      have hjoin : "/" ++ Text.joinWith "/" (part :: parts) =
          Text.joinWith "/" ("" :: part :: parts) := by
        rw [Text.joinWith_cons "" (List.cons_ne_nil _ _), String.empty_append]
      rw [hjoin]
      refine Text.splitOn_joinWith (List.cons_ne_nil _ _) (List.forall_mem_cons.mpr ⟨by decide, ?_⟩)
      exact fun q hq => (hparts q hq).no_slash
    rw [Path.ofText, hrootOf, hsplit, List.filter_cons_of_neg (by simp), filter_plainParts hparts]

/-! ## Listed paths -/

/-- The path leads over folders to a file, or to a link that leads to a file. -/
structure Workspace.Lists (w : Workspace) (g : Path) : Prop where
  root : g.root = "/"
  entry : (∃ f, w.tree.below? g.parts = some (.file f)) ∨
    (∃ target, w.tree.below? g.parts = some (.link target)) ∧ w.isFile g = true

namespace Discovery

variable {w : Workspace} {d : Discovery} {repo folder g : Path} {entries : List (String × Entry)}
  {stack rest : List (Path × List (String × Entry))}

def Stands (w : Workspace) (stack : List (Path × List (String × Entry))) : Prop :=
  ∀ x ∈ stack, x.1.root = "/" ∧ w.tree.below? x.1.parts = some (.folder x.2)

theorem mem_filesIn (h : g ∈ d.filesIn w repo folder entries) :
    ∃ x ∈ entries, g = folder.child x.1 ∧ d.lists w repo g x.2 = true := by
  obtain ⟨x, hx, hg⟩ := List.mem_filterMap.mp h
  dsimp only at hg
  split_ifs at hg with hlists
  obtain rfl := Option.some.inj hg
  exact ⟨x, hx, rfl, (Bool.and_eq_true_iff.mp hlists).2⟩

theorem mem_folders {x : Path × List (String × Entry)}
    (h : x ∈ entries.filterMap (d.folderAt? repo folder)) :
    ∃ name, (name, .folder x.2) ∈ entries ∧ x.1 = folder.child name := by
  obtain ⟨⟨name, e⟩, he, hx⟩ := List.mem_filterMap.mp h
  cases e with
  | file f => cases hx
  | link target => cases hx
  | folder below =>
    simp only [folderAt?] at hx
    split_ifs at hx
    obtain rfl := Option.some.inj hx
    exact ⟨name, he, rfl⟩

theorem Stands.next (hnamed : w.tree.WellNamed)
    (h : Stands w ((folder, entries) :: rest)) :
    Stands w ((byName entries).filterMap (d.folderAt? repo folder) ++ rest) := by
  obtain ⟨⟨hroot, hfolder⟩, hrest⟩ := List.forall_mem_cons.mp h
  refine List.forall_mem_append.mpr ⟨fun x hx => ?_, hrest⟩
  obtain ⟨name, hmem, hpath⟩ := mem_folders hx
  rw [hpath]
  exact ⟨hroot, hnamed.below?_child hfolder ((byName_perm entries).mem_iff.mp hmem)⟩

theorem lists_of_mem_filesIn (hnamed : w.tree.WellNamed) (hroot : folder.root = "/")
    (hfolder : w.tree.below? folder.parts = some (.folder entries))
    (h : g ∈ d.filesIn w repo folder (byName entries)) : w.Lists g := by
  obtain ⟨⟨name, e⟩, hx, rfl, hlists⟩ := mem_filesIn h
  have hbelow := hnamed.below?_child hfolder ((byName_perm entries).mem_iff.mp hx)
  refine ⟨hroot, ?_⟩
  cases e with
  | file f => exact Or.inl ⟨f, hbelow⟩
  | link target =>
    simp only [lists, Bool.and_eq_true] at hlists
    exact Or.inr ⟨⟨target, hbelow⟩, hlists.1.1⟩
  | folder entries => simp [lists] at hlists

theorem lists_of_mem_walk (hnamed : w.tree.WellNamed) (hstack : Stands w stack)
    (h : g ∈ d.walk w repo stack) : w.Lists g := by
  induction stack using walk.induct d repo with
  | case1 =>
    rw [walk] at h
    exact absurd h List.not_mem_nil
  | case2 folder entries rest sorted ih =>
    rw [walk] at h
    rcases List.mem_append.mp h with h | h
    · obtain ⟨hroot, hfolder⟩ := hstack _ List.mem_cons_self
      exact lists_of_mem_filesIn hnamed hroot hfolder h
    · exact ih (hstack.next hnamed) h

/-! ## Paths listed once -/

theorem path_of_folderAt? {x : String × Entry} {y : Path × List (String × Entry)}
    (h : d.folderAt? repo folder x = some y) : y.1 = folder.child x.1 := by
  obtain ⟨name, e⟩ := x
  cases e with
  | file f => cases h
  | link target => cases h
  | folder below =>
    simp only [folderAt?] at h
    split_ifs at h
    rw [← Option.some.inj h]

/-- The folders on a stack stand apart: none is another one or below it. -/
def Apart (stack : List (Path × List (String × Entry))) : Prop :=
  stack.Pairwise fun x y => ¬ x.1.parts <+: y.1.parts ∧ ¬ y.1.parts <+: x.1.parts

theorem pairwise_names (h : (Table.keys entries).Nodup) :
    (byName entries).Pairwise fun x y => x.1 ≠ y.1 := by
  have hnames : ((byName entries).map Prod.fst).Nodup :=
    ((byName_perm entries).map Prod.fst).nodup_iff.mpr h
  exact List.pairwise_map.mp hnames

theorem Apart.next (h : Apart ((folder, entries) :: rest))
    (hdistinct : (Table.keys entries).Nodup) :
    Apart ((byName entries).filterMap (d.folderAt? repo folder) ++ rest) := by
  obtain ⟨hfolder, hrest⟩ := List.pairwise_cons.mp h
  refine List.pairwise_append.mpr ⟨?_, hrest, fun x hx y hy => ?_⟩
  · refine (pairwise_names hdistinct).filterMap _ fun x y hxy x' hx y' hy => ?_
    rw [path_of_folderAt? hx, path_of_folderAt? hy, Path.child, Path.child]
    simpa [List.prefix_append_right_inj] using ⟨hxy, hxy.symm⟩
  · obtain ⟨name, -, hpath⟩ := mem_folders hx
    obtain ⟨hbelow, habove⟩ := hfolder y hy
    rw [hpath, Path.child]
    refine ⟨fun hxy => hbelow ((List.prefix_append _ _).trans hxy), fun hyx => ?_⟩
    rcases List.prefix_concat_iff.mp hyx with heq | hyx
    · exact hbelow (heq ▸ List.prefix_append _ _)
    · exact habove hyx

theorem exists_folder_of_mem_walk (h : g ∈ d.walk w repo stack) :
    ∃ x ∈ stack, x.1.parts <+: g.parts := by
  induction stack using walk.induct d repo with
  | case1 =>
    rw [walk] at h
    exact absurd h List.not_mem_nil
  | case2 folder entries rest sorted ih =>
    rw [walk] at h
    rcases List.mem_append.mp h with h | h
    · obtain ⟨x, -, rfl, -⟩ := mem_filesIn h
      exact ⟨_, List.mem_cons_self, List.prefix_append _ _⟩
    · obtain ⟨x, hx, hbelow⟩ := ih h
      rcases List.mem_append.mp hx with hx | hx
      · obtain ⟨name, -, hpath⟩ := mem_folders hx
        rw [hpath] at hbelow
        exact ⟨_, List.mem_cons_self, (List.prefix_append _ _).trans hbelow⟩
      · exact ⟨x, List.mem_cons_of_mem _ hx, hbelow⟩

/-- **The walk lists no path twice.** -/
theorem nodup_walk (hnamed : w.tree.WellNamed)
    (hstack : Stands w stack) (hapart : Apart stack) : (d.walk w repo stack).Nodup := by
  induction stack using walk.induct d repo with
  | case1 =>
    rw [walk]
    exact List.nodup_nil
  | case2 folder entries rest sorted ih =>
    obtain ⟨-, hfolder⟩ := hstack _ List.mem_cons_self
    have hdistinct := hnamed.distinct hfolder
    rw [walk]
    refine List.nodup_append.mpr ⟨?_, ih (hstack.next hnamed) (hapart.next hdistinct), ?_⟩
    · refine (pairwise_names hdistinct).filterMap _ fun x y hxy x' hx y' hy => ?_
      dsimp only at hx hy
      split_ifs at hx hy
      rw [← Option.some.inj hx, ← Option.some.inj hy, Path.child, Path.child]
      simpa using hxy
    · rintro g hg _ hg' rfl
      obtain ⟨⟨name, e⟩, hmem, rfl, hlists⟩ := mem_filesIn hg
      obtain ⟨x, hx, hbelow⟩ := exists_folder_of_mem_walk hg'
      rcases List.mem_append.mp hx with hx | hx
      · -- of one name there is no file and folder
        obtain ⟨name', hmem', hpath⟩ := mem_folders hx
        rw [hpath, Path.child, Path.child, List.prefix_append_right_inj] at hbelow
        obtain rfl : name' = name := by simpa using hbelow
        have he := hnamed.below?_child hfolder ((byName_perm entries).mem_iff.mp hmem)
        rw [hnamed.below?_child hfolder ((byName_perm entries).mem_iff.mp hmem')] at he
        obtain rfl := Option.some.inj he
        simp [lists] at hlists
      · obtain ⟨hout, hin⟩ := (List.pairwise_cons.mp hapart).1 x hx
        rcases List.prefix_concat_iff.mp hbelow with heq | hbelow
        · exact hout (heq ▸ List.prefix_append _ _)
        · exact hin hbelow

end Discovery

theorem Path.isAbsolute_join {p : Path} (h : p.isAbsolute = true) (q : Path) :
    (p.join q).isAbsolute = true := by
  unfold Path.join
  split_ifs with hq
  · exact hq
  · exact h

namespace Workspace

variable {w : Workspace} {repo root p : Path} {text : String} {names : List String}

theorem entry_eq_ok_iff {e : Entry} : w.entry p = .ok e ↔
    ∃ names, w.locate false p = .ok names ∧ w.tree.below? names = some e := by
  rw [entry, bind_eq_ok]
  refine exists_congr fun names => and_congr_right fun _ => ?_
  cases w.tree.below? names with
  | none => simp
  | some found => simp

theorem file_eq_ok_iff {f : SourceFile} : w.file p = .ok f ↔ w.entry p = .ok (.file f) := by
  rw [file, bind_eq_ok]
  constructor
  · rintro ⟨e, he, hf⟩
    cases e with
    | file found => rw [he, Except.ok.inj hf]
    | folder entries => cases hf
    | link target => cases hf
  · exact fun he => ⟨_, he, rfl⟩

theorem isFile_iff : w.isFile p = true ↔ ∃ f, w.entry p = .ok (.file f) := by
  unfold isFile
  generalize w.entry p = outcome
  rcases outcome with fault | ⟨f | entries | target⟩ <;> simp

theorem locate_of_held (hroot : p.root = "/") (h : Held w.tree p.parts) {e : Entry}
    (he : w.entry p = .ok e) : w.locate false p = .ok p.parts ∧ w.tree.below? p.parts = some e := by
  have habsolute : p.isAbsolute = true := by
    rw [Path.isAbsolute, hroot]
    rfl
  obtain ⟨found, hlocate, he⟩ := entry_eq_ok_iff.mp he
  have hfound := hlocate
  unfold locate at hfound
  split_ifs at hfound
  rw [start_of_isAbsolute habsolute, h.follow_eq] at hfound
  obtain rfl := Except.ok.inj hfound
  exact ⟨hlocate, he⟩

theorem rootAt?_of_locate (hrepo : repo.isAbsolute = true) {q : Path}
    (hq : (Path.ofText text).expanded w.homes = .ok q)
    (h : w.locate false (repo.join q) = .ok names)
    {e : Entry} (he : w.tree.below? names = some e) :
    w.rootAt? repo text = .ok (some { root := "/", parts := names }) := by
  have hprobe : w.probe (repo.join q) = .ok (some e) := by
    rw [probe, entry_eq_ok_iff.mpr ⟨names, h, he⟩]
  rw [rootAt?, hq, ok_bind]
  dsimp only
  rw [hprobe]
  dsimp only
  rw [resolve_of_locate (Path.isAbsolute_join hrepo q) h]
  rfl

/-- **A root that is there** is free of links, and what the text means leads to it. -/
theorem held_of_rootAt? (hrepo : repo.isAbsolute = true)
    (h : w.rootAt? repo text = .ok (some root)) :
    ∃ q, (Path.ofText text).expanded w.homes = .ok q ∧
      w.locate false (repo.join q) = .ok root.parts ∧
      (∃ e, w.tree.below? root.parts = some e) ∧ root.root = "/" ∧ Held w.tree root.parts := by
  obtain ⟨q, hq, hrest⟩ := bind_eq_ok.mp h
  refine ⟨q, hq, ?_⟩
  cases hentry : w.entry (repo.join q) with
  | error fault =>
    dsimp only [probe] at hrest
    rw [hentry] at hrest
    cases fault <;> cases hrest
  | ok e =>
    obtain ⟨names, hlocate, he⟩ := entry_eq_ok_iff.mp hentry
    rw [rootAt?_of_locate hrepo hq hlocate he] at h
    obtain rfl := Option.some.inj (Except.ok.inj h)
    exact ⟨hlocate, ⟨e, he⟩, rfl, held_of_locate (Path.isAbsolute_join hrepo q) hlocate⟩

/-- **A search lists** the paths of files, and of links that lead to files. -/
theorem lists_of_mem_discover (hnamed : w.tree.WellNamed) (hroot : root.root = "/")
    (hheld : Held w.tree root.parts) {d : Discovery} {g : Path} (h : g ∈ w.discover root repo d) :
    w.Lists g := by
  unfold discover at h
  split at h
  · rename_i f he
    obtain rfl := List.mem_singleton.mp h
    exact ⟨hroot, Or.inl ⟨f, (locate_of_held hroot hheld he).2⟩⟩
  · rename_i entries he
    refine Discovery.lists_of_mem_walk hnamed ?_ h
    exact List.forall_mem_singleton.mpr ⟨hroot, (locate_of_held hroot hheld he).2⟩
  · exact absurd h List.not_mem_nil

/-- **A search lists no path twice.** -/
theorem nodup_discover (hnamed : w.tree.WellNamed) (hroot : root.root = "/")
    (hheld : Held w.tree root.parts) (d : Discovery) : (w.discover root repo d).Nodup := by
  unfold discover
  split
  · exact List.nodup_singleton _
  · rename_i entries he
    refine Discovery.nodup_walk hnamed ?_ (List.pairwise_singleton _ _)
    exact List.forall_mem_singleton.mpr ⟨hroot, (locate_of_held hroot hheld he).2⟩
  · exact List.nodup_nil

end Workspace

end CodeAtlas
