import CodeAtlas.Proofs.Files.Removal
import Mathlib.Data.List.Sort

/-!
# The search as a recursion

A search keeps a stack of folders and leaves out a folder as soon as its path is excluded. The path
of a folder opens the paths below it, so what excludes the folder excludes each of them.

* **`Discovery.walk_eq`**: the search lists what the recursion lists and the rule keeps.
-/

namespace CodeAtlas

/-! ## Ways down -/

namespace Path

def descend (p : Path) (names : List String) : Path := { p with parts := p.parts ++ names }

variable {p base : Path} {name : String} {names : List String}

theorem descend_nil (p : Path) : p.descend [] = p := by
  rw [descend, List.append_nil]

theorem descend_cons (p : Path) (name : String) (names : List String) :
    p.descend (name :: names) = (p.child name).descend names := by
  rw [descend, descend, child, List.append_assoc, List.singleton_append]

theorem descend_append (p : Path) (names rest : List String) :
    p.descend (names ++ rest) = (p.descend names).descend rest := by
  rw [descend, descend, descend, List.append_assoc]

theorem descend_inj {names' : List String} :
    p.descend names = p.descend names' ↔ names = names' := by
  simp [descend]

theorem child_eq_descend (p : Path) (name : String) : p.child name = p.descend [name] := rfl

theorem text_isPrefix {root part : String} {parts : List String} (hmem : part ∈ parts)
    (hne : part ≠ "") (names : List String) :
    (⟨root, parts⟩ : Path).text.toList <+: (⟨root, parts ++ names⟩ : Path).text.toList := by
  have htext : ∀ all : List String, part ∈ all →
      (⟨root, all⟩ : Path).text = root ++ Text.joinWith "/" all := by
    intro all hall
    have hjoin := Text.joinWith_isEmpty hall hne
    have hfilled : (root ++ Text.joinWith "/" all).isEmpty = false := by
      rw [← Bool.not_eq_true, String.isEmpty_iff] at hjoin ⊢
      intro hempty
      rw [← String.toList_inj, String.toList_append] at hempty
      exact hjoin (String.toList_inj.mp (List.append_eq_nil_iff.mp hempty).2)
    change (if (root ++ Text.joinWith "/" all).isEmpty then "." else _) = _
    rw [hfilled]
    rfl
  rw [htext parts hmem, htext _ (List.mem_append_left names hmem)]
  cases names with
  | nil => simpa only [List.append_nil] using List.prefix_rfl
  | cons name names =>
    rw [Text.joinWith_append (List.ne_nil_of_mem hmem) (List.cons_ne_nil _ _)]
    simp only [String.toList_append, ← List.append_assoc]
    rw [List.append_assoc (root.toList ++ _)]
    exact List.prefix_append _ _

theorem under_of_eq_append {rest : List String} (hroot : p.root = base.root)
    (hparts : p.parts = base.parts ++ rest) : p.under base = (⟨"", rest⟩ : Path).text := by
  have hin : (p.root == base.root && base.parts.isPrefixOf p.parts) = true := by
    rw [hparts, beq_iff_eq.mpr hroot, Bool.true_and, List.isPrefixOf_iff_prefix]
    exact List.prefix_append _ _
  rw [under, relativeTo?, if_pos hin, Option.getD_some, hparts, List.drop_left]

theorem under_of_outside (h : ¬ (p.root = base.root ∧ base.parts <+: p.parts)) :
    p.under base = p.text := by
  have hout : ¬ (p.root == base.root && base.parts.isPrefixOf p.parts) = true := by
    rwa [Bool.and_eq_true, beq_iff_eq, List.isPrefixOf_iff_prefix]
  rw [under, relativeTo?, if_neg hout, Option.getD_none]

/-- The text of a path opens the texts of those below, if the base is not on the way. -/
theorem under_isPrefix (hname : name ≠ "")
    (hbase : ∀ front, front <+: names → (p.child name).descend front ≠ base) :
    ((p.child name).under base).toList <+: (((p.child name).descend names).under base).toList := by
  by_cases hin : (p.child name).root = base.root ∧ base.parts <+: (p.child name).parts
  · obtain ⟨hroot, rest, hrest⟩ := hin
    -- the base is above the path, so the name of the path is seen
    have hmem : name ∈ rest := by
      rcases List.eq_nil_or_concat' rest with rfl | ⟨front, last, rfl⟩
      · refine absurd ?_ (hbase [] List.nil_prefix)
        rw [List.append_nil] at hrest
        rw [descend_nil]
        obtain ⟨root, parts⟩ := base
        exact congrArg₂ Path.mk hroot hrest.symm
      · rw [← List.append_assoc] at hrest
        obtain rfl : last = name := by simpa using List.append_inj_right' hrest rfl
        exact List.mem_append_right _ List.mem_cons_self
    have hbelow : ((p.child name).descend names).parts = base.parts ++ (rest ++ names) := by
      rw [descend, ← hrest, List.append_assoc]
    rw [under_of_eq_append hroot hrest.symm,
      under_of_eq_append (p := (p.child name).descend names) hroot hbelow]
    exact text_isPrefix hmem hname names
  · -- a base that is not above the path is above none of those below it
    have hout : ¬ (((p.child name).descend names).root = base.root ∧
        base.parts <+: ((p.child name).descend names).parts) := by
      rintro ⟨hroot, hprefix⟩
      rcases List.prefix_or_prefix_of_prefix hprefix (List.prefix_append _ names) with
        habove | ⟨front, hfront⟩
      · exact hin ⟨hroot, habove⟩
      · rw [← hfront] at hprefix
        refine hbase front ((List.prefix_append_right_inj _).mp hprefix) ?_
        obtain ⟨root, parts⟩ := base
        exact congrArg₂ Path.mk hroot hfront
    rw [under_of_outside hin, under_of_outside hout]
    exact text_isPrefix (List.mem_append_right _ List.mem_cons_self) hname names

end Path

/-! ## The recursion -/

def Entry.isFileAt (w : Workspace) (path : Path) : Entry → Bool
  | .file _ => true
  | .link _ => w.isFile path
  | .folder _ => false

namespace Discovery

def inOrder {α : Type} (xs : List (String × α)) : List (String × α) :=
  xs.insertionSort fun x y => x.1 ≤ y.1

def sourceAt? (d : Discovery) (w : Workspace) (folder : Path) (x : String × Entry) : Option Path :=
  let path := folder.child x.1
  if x.2.isFileAt w path && d.extensions.contains path.extension then some path else none

mutual

/-- The source files of a folder by name, then what is listed for the folders in it. -/
def listing (d : Discovery) (w : Workspace) (path : Path) : Entry → List Path
  | .folder entries =>
    (inOrder entries).filterMap (d.sourceAt? w path) ++
      (inOrder (d.blocks w path entries)).flatMap (·.2)
  | _ => []

/-- What is listed for each entry by name; ignored folders are not entered. -/
def blocks (d : Discovery) (w : Workspace) (folder : Path) :
    List (String × Entry) → List (String × List Path)
  | [] => []
  | (name, e) :: rest =>
    (name, if name ∈ d.ignored then [] else d.listing w (folder.child name) e) ::
      d.blocks w folder rest

end

def block (d : Discovery) (w : Workspace) (folder : Path) (x : String × Entry) : List Path :=
  if x.1 ∈ d.ignored then [] else d.listing w (folder.child x.1) x.2

section Order

variable {α β : Type} {xs : List (String × α)}

theorem inOrder_perm (xs : List (String × α)) : (inOrder xs).Perm xs :=
  List.perm_insertionSort _ xs

theorem pairwise_inOrder (xs : List (String × α)) : (inOrder xs).Pairwise fun x y => x.1 ≤ y.1 := by
  have : Std.Total fun x y : String × α => x.1 ≤ y.1 := ⟨fun x y => String.le_total x.1 y.1⟩
  have : IsTrans (String × α) fun x y => x.1 ≤ y.1 := ⟨fun _ _ _ => String.le_trans⟩
  exact List.pairwise_insertionSort _ xs

theorem inOrder_map (f : String × α → β) :
    inOrder (xs.map fun x => (x.1, f x)) = (inOrder xs).map fun x => (x.1, f x) :=
  (List.map_insertionSort (fun x y : String × α => x.1 ≤ y.1) (fun x y : String × β => x.1 ≤ y.1)
    (fun x => (x.1, f x)) xs fun _ _ _ _ => Iff.rfl).symm

theorem inOrder_eq_byName {entries : List (String × Entry)} (h : (Table.keys entries).Nodup) :
    inOrder entries = byName entries := by
  have hone : ∀ x y, x ∈ inOrder entries → y ∈ byName entries → x.1 ≤ y.1 → y.1 ≤ x.1 → x = y := by
    intro x y hx hy hxy hyx
    exact List.inj_on_of_nodup_map h ((inOrder_perm entries).mem_iff.mp hx)
      ((byName_perm entries).mem_iff.mp hy) (String.le_antisymm hxy hyx)
  exact ((inOrder_perm entries).trans (byName_perm entries).symm).eq_of_pairwise hone
    (pairwise_inOrder entries) (pairwise_byName entries)

end Order

variable {d : Discovery} {w : Workspace} {repo folder p g : Path} {entries : List (String × Entry)}
  {names : List String} {e : Entry}

theorem blocks_eq (d : Discovery) (w : Workspace) (folder : Path)
    (entries : List (String × Entry)) :
    d.blocks w folder entries = entries.map fun x => (x.1, d.block w folder x) := by
  induction entries with
  | nil => rfl
  | cons x entries ih => rw [blocks, ih, List.map_cons, block]

theorem listing_folder (d : Discovery) (w : Workspace) (folder : Path)
    (entries : List (String × Entry)) : d.listing w folder (.folder entries) =
      (inOrder entries).filterMap (d.sourceAt? w folder) ++
        (inOrder entries).flatMap (d.block w folder) := by
  rw [listing, blocks_eq, inOrder_map, List.flatMap_map]

theorem sourceAt?_eq_some_iff {x : String × Entry} : d.sourceAt? w folder x = some g ↔
    g = folder.child x.1 ∧ x.2.isFileAt w g = true ∧ d.extensions.contains g.extension = true := by
  unfold sourceAt?
  dsimp only
  split_ifs with h
  · rw [Bool.and_eq_true_iff] at h
    rw [Option.some.injEq]
    constructor
    · rintro rfl
      exact ⟨rfl, h⟩
    · exact fun hg => hg.1.symm
  · rw [Bool.and_eq_true_iff] at h
    constructor
    · intro hg
      cases hg
    · rintro ⟨rfl, hg⟩
      exact absurd hg h

end Discovery

theorem Entry.below?_of_mem {entries : List (String × Entry)} {name : String} {e : Entry}
    (hdistinct : (Table.keys entries).Nodup) (hmem : (name, e) ∈ entries) (names : List String) :
    (Entry.folder entries).below? (name :: names) = e.below? names := by
  rw [below?, Table.get?_of_mem hdistinct hmem, Option.bind_some]

namespace Discovery

variable {d : Discovery} {w : Workspace} {repo folder p g : Path} {entries : List (String × Entry)}
  {names : List String} {e : Entry}

/-- The paths that the recursion lists: over folders not ignored to a source file. -/
theorem mem_listing_iff (hnamed : e.WellNamed) : g ∈ d.listing w p e ↔
    ∃ names file, names ≠ [] ∧ g = p.descend names ∧ e.below? names = some file ∧
      file.isFileAt w g = true ∧ d.extensions.contains g.extension = true ∧
      ∀ name ∈ names.dropLast, name ∉ d.ignored := by
  induction hnamed generalizing p with
  | file f =>
    refine iff_of_false List.not_mem_nil ?_
    rintro ⟨names, file, hne, -, hbelow, -⟩
    cases names with
    | nil => exact hne rfl
    | cons name names => cases hbelow
  | link target =>
    refine iff_of_false List.not_mem_nil ?_
    rintro ⟨names, file, hne, -, hbelow, -⟩
    cases names with
    | nil => exact hne rfl
    | cons name names => cases hbelow
  | @folder entries distinct plain below ih =>
    rw [listing_folder, List.mem_append]
    constructor
    · rintro (hg | hg)
      · obtain ⟨x, hx, hsource⟩ := List.mem_filterMap.mp hg
        obtain ⟨hpath, hfile, hext⟩ := sourceAt?_eq_some_iff.mp hsource
        have hmem := (inOrder_perm entries).mem_iff.mp hx
        exact ⟨[x.1], x.2, List.cons_ne_nil _ _, hpath, Entry.below?_of_mem distinct hmem [], hfile,
          hext, by simp⟩
      · obtain ⟨x, hx, hblock⟩ := List.mem_flatMap.mp hg
        have hmem := (inOrder_perm entries).mem_iff.mp hx
        unfold block at hblock
        split_ifs at hblock with hignored
        · exact absurd hblock List.not_mem_nil
        · obtain ⟨names, file, hne, rfl, hbelow, hfile, hext, hopen⟩ := (ih x hmem).mp hblock
          refine ⟨x.1 :: names, file, List.cons_ne_nil _ _, (p.descend_cons _ _).symm,
            (Entry.below?_of_mem distinct hmem names).trans hbelow, hfile, hext, ?_⟩
          rw [List.dropLast_cons_of_ne_nil hne]
          exact List.forall_mem_cons.mpr ⟨hignored, hopen⟩
    · rintro ⟨names, file, hne, rfl, hbelow, hfile, hext, hopen⟩
      cases names with
      | nil => exact absurd rfl hne
      | cons name names =>
        obtain ⟨child, hchild, hbelow⟩ := Option.bind_eq_some_iff.mp hbelow
        have hmem := (Table.get?_eq_some_iff distinct).mp hchild
        have hx := (inOrder_perm entries).mem_iff.mpr hmem
        cases names with
        | nil =>
          obtain rfl := Option.some.inj hbelow
          refine Or.inl (List.mem_filterMap.mpr ⟨_, hx, ?_⟩)
          exact sourceAt?_eq_some_iff.mpr ⟨rfl, hfile, hext⟩
        | cons next names =>
          rw [List.dropLast_cons_of_ne_nil (List.cons_ne_nil _ _)] at hopen
          obtain ⟨hignored, hopen⟩ := List.forall_mem_cons.mp hopen
          refine Or.inr (List.mem_flatMap.mpr ⟨_, hx, ?_⟩)
          rw [block, if_neg hignored, ih _ hmem]
          exact ⟨next :: names, file, List.cons_ne_nil _ _, p.descend_cons _ _, hbelow, hfile, hext,
            hopen⟩

theorem exists_descend (hnamed : e.WellNamed) (h : g ∈ d.listing w p e) :
    ∃ names, names ≠ [] ∧ g = p.descend names := by
  obtain ⟨names, -, hne, hg, -⟩ := (mem_listing_iff hnamed).mp h
  exact ⟨names, hne, hg⟩

theorem exists_descend_of_block (hnamed : ∀ x ∈ entries, x.2.WellNamed) {x : String × Entry}
    (hx : x ∈ inOrder entries) (h : g ∈ d.block w p x) :
    ∃ names, names ≠ [] ∧ g = p.descend (x.1 :: names) := by
  unfold block at h
  split_ifs at h with hignored
  · exact absurd h List.not_mem_nil
  · obtain ⟨names, hne, rfl⟩ := exists_descend (hnamed x ((inOrder_perm entries).mem_iff.mp hx)) h
    exact ⟨names, hne, (p.descend_cons _ _).symm⟩

theorem nodup_listing (hnamed : e.WellNamed) : (d.listing w p e).Nodup := by
  induction hnamed generalizing p with
  | file f => exact List.nodup_nil
  | link target => exact List.nodup_nil
  | @folder entries distinct plain below ih =>
    have hnames : (inOrder entries).Pairwise fun x y => x.1 ≠ y.1 :=
      List.pairwise_map.mp (((inOrder_perm entries).map Prod.fst).nodup_iff.mpr distinct)
    rw [listing_folder]
    refine List.nodup_append.mpr ⟨?_, List.nodup_flatMap.mpr ⟨fun x hx => ?_, ?_⟩, ?_⟩
    · refine hnames.filterMap _ fun x y hxy g hg g' hg' => ?_
      rw [(sourceAt?_eq_some_iff.mp hg).1, (sourceAt?_eq_some_iff.mp hg').1]
      simpa [Path.child] using hxy
    · unfold block
      split_ifs
      · exact List.nodup_nil
      · exact ih x ((inOrder_perm entries).mem_iff.mp hx)
    · refine hnames.imp_of_mem fun {x y} hx hy hxy g hg hg' => hxy ?_
      obtain ⟨names, -, rfl⟩ := exists_descend_of_block below hx hg
      obtain ⟨names', -, heq⟩ := exists_descend_of_block below hy hg'
      exact (List.cons.inj (Path.descend_inj.mp heq)).1
    · -- a file of the folder has one name behind the folder, a path in a block has more
      rintro g hg _ hg' rfl
      obtain ⟨x, -, hsource⟩ := List.mem_filterMap.mp hg
      obtain ⟨y, hy, hblock⟩ := List.mem_flatMap.mp hg'
      obtain ⟨names, hne, hpath⟩ := exists_descend_of_block below hy hblock
      rw [(sourceAt?_eq_some_iff.mp hsource).1, Path.child_eq_descend, Path.descend_inj] at hpath
      exact hne (List.cons.inj hpath).2.symm

theorem listing_infix {e' : Entry} (hnamed : e.WellNamed) (h : e.below? names = some e')
    (hopen : ∀ name ∈ names, name ∉ d.ignored) :
    d.listing w (p.descend names) e' <:+: d.listing w p e := by
  induction names generalizing e p with
  | nil =>
    obtain rfl := Option.some.inj h
    simpa only [Path.descend_nil] using List.infix_rfl
  | cons name names ih =>
    cases hnamed with
    | file f => cases h
    | link target => cases h
    | @folder entries distinct plain below =>
      obtain ⟨child, hchild, h⟩ := Option.bind_eq_some_iff.mp h
      obtain ⟨hignored, hopen⟩ := List.forall_mem_cons.mp hopen
      have hmem := (Table.get?_eq_some_iff distinct).mp hchild
      obtain ⟨front, back, hsplit⟩ :=
        List.append_of_mem ((inOrder_perm entries).mem_iff.mpr hmem)
      have hblock : d.block w p (name, child) <:+: d.listing w p (.folder entries) := by
        rw [listing_folder, hsplit, List.flatMap_append, List.flatMap_cons, ← List.append_assoc,
          ← List.append_assoc]
        exact List.infix_append _ _ _
      rw [Path.descend_cons]
      rw [block, if_neg hignored] at hblock
      exact (ih (below _ hmem) h hopen).trans hblock

theorem mem_listing_descend {below : List (String × Entry)} (hnamed : e.WellNamed)
    (h : e.below? names = some (.folder below)) {rest : List String}
    (hg : p.descend (names ++ rest) ∈ d.listing w p e) :
    p.descend (names ++ rest) ∈ d.listing w (p.descend names) (.folder below) := by
  obtain ⟨names', file, -, heq, hbelow, hfile, hext, hopen⟩ := (mem_listing_iff hnamed).mp hg
  obtain rfl := Path.descend_inj.mp heq
  rw [Entry.below?_append, h, Option.bind_some] at hbelow
  have hrest : rest ≠ [] := by
    rintro rfl
    obtain rfl := Option.some.inj hbelow
    cases hfile
  refine (mem_listing_iff (hnamed.of_below? h).1).mpr
    ⟨rest, file, hrest, p.descend_append names rest, hbelow, hfile, hext, fun name hname => ?_⟩
  rw [List.dropLast_append_of_ne_nil hrest] at hopen
  exact hopen name (List.mem_append_right _ hname)

end Discovery

/-! ## The rule for paths -/

namespace Discovery

/-- The path holds no excluded part, and one that is asked for if there are any. -/
def Keeps (d : Discovery) (path : String) : Prop :=
  (∀ part ∈ d.excluded, part ≠ "" → ¬ part.toList <:+: path.toList) ∧
    ((∃ part ∈ d.included, part ≠ "") →
      ∃ part ∈ d.included, part ≠ "" ∧ part.toList <:+: path.toList)

instance (d : Discovery) (path : String) : Decidable (d.Keeps path) :=
  inferInstanceAs (Decidable (_ ∧ _))

variable {d : Discovery} {w : Workspace} {repo folder p g : Path} {entries : List (String × Entry)}
  {names : List String} {e : Entry} {path : String}

theorem excludes_iff : d.excludes path = true ↔
    ∃ part ∈ d.excluded, part ≠ "" ∧ part.toList <:+: path.toList := by
  simp [excludes, Text.hasPart_iff]

theorem includes_iff : d.includes path = true ↔ ((∃ part ∈ d.included, part ≠ "") →
    ∃ part ∈ d.included, part ≠ "" ∧ part.toList <:+: path.toList) := by
  simp only [includes, Bool.or_eq_true, List.isEmpty_iff, List.filter_eq_nil_iff, List.any_eq_true,
    List.mem_filter, Bool.not_eq_true', Text.hasPart_iff, and_assoc, String.isEmpty_eq_false_iff]
  rw [imp_iff_not_or]
  simp

theorem keeps_iff : d.Keeps path ↔ d.excludes path = false ∧ d.includes path = true := by
  rw [Keeps, includes_iff, ← Bool.not_eq_true, excludes_iff]
  simp

/-! ## The search -/

def kept (d : Discovery) (w : Workspace) (repo path : Path) (e : Entry) : List Path :=
  (d.listing w path e).filter fun g => d.Keeps (g.under repo)

/-- The repository is not further down in what stands at the path. -/
def StandsClear (w : Workspace) (repo path : Path) (e : Entry) : Prop :=
  ∀ names x, names ≠ [] → e.below? names = some x → path.descend names = repo →
    (∃ target, x = .link target) ∧ w.isFile repo = false

theorem StandsClear.child {name : String} (h : StandsClear w repo folder (.folder entries))
    (hdistinct : (Table.keys entries).Nodup) (hmem : (name, e) ∈ entries) :
    StandsClear w repo (folder.child name) e := by
  intro names x hne hx hrepo
  exact h (name :: names) x (List.cons_ne_nil _ _)
    ((Entry.below?_of_mem hdistinct hmem names).trans hx) (folder.descend_cons name names ▸ hrepo)

theorem excludes_of_mem_listing {name : String} {below : List (String × Entry)}
    (hnamed : (Entry.folder entries).WellNamed)
    (hclear : StandsClear w repo folder (.folder entries)) (hmem : (name, .folder below) ∈ entries)
    (hexcluded : d.excludes ((folder.child name).under repo) = true)
    (hg : g ∈ d.listing w (folder.child name) (.folder below)) :
    d.excludes (g.under repo) = true := by
  cases hnamed with
  | folder distinct plain named =>
    obtain ⟨names, file, -, rfl, hbelow, hfile, -⟩ := (mem_listing_iff (named _ hmem)).mp hg
    -- neither the folder nor what is on the way to the file is the repository
    have hway : ∀ front, front <+: names → (folder.child name).descend front ≠ repo := by
      rintro front ⟨rest, rfl⟩ hrepo
      have hentry : ∀ x, (Entry.folder below).below? front = some x →
          (∃ target, x = .link target) ∧ w.isFile repo = false := by
        intro x hx
        exact hclear (name :: front) x (List.cons_ne_nil _ _)
          ((Entry.below?_of_mem distinct hmem front).trans hx) (folder.descend_cons _ _ ▸ hrepo)
      cases rest with
      | nil =>
        rw [List.append_nil] at hbelow hfile
        obtain ⟨⟨target, rfl⟩, hnoFile⟩ := hentry file hbelow
        rw [Entry.isFileAt, hrepo, hnoFile] at hfile
        cases hfile
      | cons next rest =>
        obtain ⟨inside, hinside⟩ := Entry.exists_folder hbelow
        obtain ⟨⟨target, hlink⟩, -⟩ := hentry _ hinside
        cases hlink
    have hname : name ≠ "" := (plain _ hmem).ne_empty
    obtain ⟨part, hpart, hne, hin⟩ := excludes_iff.mp hexcluded
    exact excludes_iff.mpr ⟨part, hpart, hne, hin.trans (Path.under_isPrefix hname hway).isInfix⟩

theorem decide_keeps (d : Discovery) (path : String) :
    decide (d.Keeps path) = (!d.excludes path && d.includes path) := by
  rw [Bool.eq_iff_iff, decide_eq_true_iff, keeps_iff, Bool.and_eq_true, Bool.not_eq_true']

theorem lists_eq (x : String × Entry) : d.lists w repo p x.2 =
    (x.2.isFileAt w p && d.extensions.contains p.extension && d.includes (p.under repo)) := by
  obtain ⟨name, e⟩ := x
  cases e <;> rfl

theorem filter_sources (sorted : List (String × Entry)) :
    (sorted.filterMap (d.sourceAt? w folder)).filter (fun g => d.Keeps (g.under repo)) =
      d.filesIn w repo folder sorted := by
  rw [filesIn_eq, List.filter_filterMap]
  refine List.filterMap_congr fun x _ => ?_
  rw [fileAt?, lists_eq, sourceAt?]
  by_cases hsource : (x.2.isFileAt w (folder.child x.1) &&
      d.extensions.contains (folder.child x.1).extension) = true
  · rw [if_pos hsource, hsource, Bool.true_and, Option.filter_some, decide_keeps]
  · rw [if_neg hsource, Bool.eq_false_iff.mpr hsource, Bool.false_and, Bool.and_false]
    rfl

theorem flatMap_folders (hnamed : (Entry.folder entries).WellNamed)
    (hclear : StandsClear w repo folder (.folder entries)) {sorted : List (String × Entry)}
    (hsorted : sorted ⊆ entries) :
    ((sorted.filterMap (d.folderAt? repo folder)).flatMap
        fun x => d.kept w repo x.1 (.folder x.2)) =
      (sorted.flatMap (d.block w folder)).filter fun g => d.Keeps (g.under repo) := by
  rw [List.filterMap_eq_flatMap_toList, List.flatMap_assoc, List.filter_flatMap]
  refine List.flatMap_congr fun x hx => ?_
  obtain ⟨name, e⟩ := x
  cases e with
  | file f => simp [folderAt?, block, listing]
  | link target => simp [folderAt?, block, listing]
  | folder below =>
    by_cases hignored : name ∈ d.ignored
    · simp [folderAt?, block, hignored]
    · cases hexcluded : d.excludes ((folder.child name).under repo) with
      | false => simp [folderAt?, block, hignored, hexcluded, kept]
      | true =>
        -- a folder that is left out has nothing that would be kept
        have hnone : ∀ g ∈ d.listing w (folder.child name) (.folder below),
            ¬ d.Keeps (g.under repo) := by
          intro g hg
          rw [keeps_iff, excludes_of_mem_listing hnamed hclear (hsorted hx) hexcluded hg]
          simp
        simpa [folderAt?, block, hignored, hexcluded] using hnone

theorem kept_folder (hnamed : (Entry.folder entries).WellNamed)
    (hclear : StandsClear w repo folder (.folder entries)) :
    d.kept w repo folder (.folder entries) = d.filesIn w repo folder (byName entries) ++
      ((byName entries).filterMap (d.folderAt? repo folder)).flatMap
        fun x => d.kept w repo x.1 (.folder x.2) := by
  have hsorted : byName entries ⊆ entries := (byName_perm entries).subset
  have hdistinct : (Table.keys entries).Nodup := by
    cases hnamed with
    | folder distinct => exact distinct
  rw [kept, listing_folder, inOrder_eq_byName hdistinct, List.filter_append, filter_sources,
    flatMap_folders hnamed hclear hsorted]

/-- The search lists what the recursion lists for its stack and the rule keeps. -/
theorem walk_eq {stack : List (Path × List (String × Entry))}
    (hnamed : ∀ x ∈ stack, (Entry.folder x.2).WellNamed)
    (hclear : ∀ x ∈ stack, StandsClear w repo x.1 (.folder x.2)) :
    d.walk w repo stack = stack.flatMap fun x => d.kept w repo x.1 (.folder x.2) := by
  induction stack using walk.induct d repo with
  | case1 => rw [walk, List.flatMap_nil]
  | case2 folder entries rest sorted ih =>
    obtain ⟨hfolder, hrest⟩ := List.forall_mem_cons.mp hnamed
    obtain ⟨hclearFolder, hclearRest⟩ := List.forall_mem_cons.mp hclear
    have hentered : ∀ x ∈ sorted.filterMap (d.folderAt? repo folder),
        (Entry.folder x.2).WellNamed ∧ StandsClear w repo x.1 (.folder x.2) := by
      intro x hx
      obtain ⟨name, hmem, hpath⟩ := mem_folders hx
      have hmem := (byName_perm entries).mem_iff.mp hmem
      cases hfolder with
      | folder distinct plain below =>
        rw [hpath]
        exact ⟨below _ hmem, hclearFolder.child distinct hmem⟩
    rw [walk, List.flatMap_cons, kept_folder hfolder hclearFolder, List.append_assoc,
      ih (List.forall_mem_append.mpr ⟨fun x hx => (hentered x hx).1, hrest⟩)
        (List.forall_mem_append.mpr ⟨fun x hx => (hentered x hx).2, hclearRest⟩),
      List.flatMap_append]

end Discovery

end CodeAtlas
