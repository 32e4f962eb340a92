import CodeAtlas.Proofs.Impact.LostAnswers

/-!
# Spellings of the file that changes

The file that changes is given as a path from the top, which is resolved, or in the repository,
whose dots are worked off as text. What is left are the names that lead down from the repository.

* **`Workspace.impactOf_spelling`**: an inquiry is the same for all spellings.
-/

namespace CodeAtlas

/-! ## Dots worked off -/

/-- The parts wind from `here` to `there`: dots stay, two dots take a name back, and others go
down. -/
inductive Winds : List String → List String → List String → Prop
  | done (here : List String) : Winds here [] here
  | stay {here rest there : List String} {part : String} (hpart : part = "" ∨ part = ".")
      (hrest : Winds here rest there) : Winds here (part :: rest) there
  | up {here rest there : List String} {name : String} (hrest : Winds here rest there) :
      Winds (here ++ [name]) (".." :: rest) there
  | down {here rest there : List String} {part : String} (hpart : part ∉ ["", ".", ".."])
      (hrest : Winds (here ++ [part]) rest there) : Winds here (part :: rest) there

section Dots

variable {here there parts before : List String} {part : String}

theorem part_cases (part : String) :
    (part = "" ∨ part = ".") ∨ part = ".." ∨ part ∉ ["", ".", ".."] := by
  simp only [List.mem_cons, List.not_mem_nil, or_false]
  tauto

theorem addPart_stay (absolute : Bool) (before : List String) (h : part = "" ∨ part = ".") :
    addPart absolute before part = before := by
  rcases h with rfl | rfl <;> rfl

theorem addPart_up {name : String} (hname : name ≠ "..") :
    addPart false (name :: before) ".." = before := by
  simp [addPart, hname]

theorem addPart_down (absolute : Bool) (before : List String) (h : part ∉ ["", ".", ".."]) :
    addPart absolute before part = part :: before := by
  obtain ⟨hstay, hup⟩ := not_stay_of_notMem h
  rw [not_or] at hstay
  simp [addPart, hstay, hup]

/-- Two dots that are left at the start are never taken back. -/
theorem dots_mem_addPart (h : ".." ∈ before) (part : String) :
    ".." ∈ addPart false before part := by
  rcases part_cases part with hstay | rfl | hdown
  · rwa [addPart_stay false before hstay]
  · cases before with
    | nil => exact absurd h List.not_mem_nil
    | cons name rest =>
      by_cases hname : name = ".."
      · simp [addPart, hname]
      · rw [addPart_up hname]
        exact (List.mem_cons.mp h).resolve_left (Ne.symm hname)
  · rw [addPart_down false before hdown]
    exact List.mem_cons_of_mem _ h

theorem dots_mem_foldl (h : ".." ∈ before) : ".." ∈ parts.foldl (addPart false) before := by
  induction parts generalizing before with
  | nil => exact h
  | cons part parts ih => exact ih (dots_mem_addPart h part)

theorem Winds.foldl_eq (h : Winds here parts there) (hhere : ".." ∉ here) :
    parts.foldl (addPart false) here.reverse = there.reverse := by
  induction h with
  | done => rfl
  | stay hpart _ ih => rw [List.foldl_cons, addPart_stay false _ hpart, ih hhere]
  | @up here rest there name _ ih =>
    obtain ⟨hhere, hname⟩ := not_or.mp (mt List.mem_append.mpr hhere)
    rw [List.foldl_cons, List.reverse_append, List.reverse_singleton, List.singleton_append,
      addPart_up (Ne.symm (mt List.mem_singleton.mpr hname)), ih hhere]
  | @down here rest there part hpart _ ih =>
    have hdown : ".." ∉ here ++ [part] := by
      rw [List.mem_append, List.mem_singleton, not_or]
      exact ⟨hhere, Ne.symm (not_stay_of_notMem hpart).2⟩
    rw [List.foldl_cons, addPart_down false _ hpart, ← ih hdown, List.reverse_append]
    rfl

theorem winds_of_foldl (h : ".." ∉ parts.foldl (addPart false) before) :
    Winds before.reverse parts (parts.foldl (addPart false) before).reverse := by
  induction parts generalizing before with
  | nil => exact .done _
  | cons part parts ih =>
    rw [List.foldl_cons] at h ⊢
    rcases part_cases part with hstay | rfl | hdown
    · rw [addPart_stay false before hstay] at h ⊢
      exact .stay hstay (ih h)
    · cases before with
      | nil => exact absurd (dots_mem_foldl List.mem_cons_self) h
      | cons name rest =>
        by_cases hname : name = ".."
        · exact absurd (dots_mem_foldl (dots_mem_addPart (hname ▸ List.mem_cons_self) _)) h
        · rw [addPart_up hname] at h ⊢
          rw [List.reverse_cons]
          exact .up (ih h)
    · rw [addPart_down false before hdown] at h ⊢
      refine .down hdown ?_
      rw [← List.reverse_cons]
      exact ih h

theorem normalParts_eq_iff {names : List String} (hnames : ".." ∉ names) :
    normalParts false parts = names ↔ Winds [] parts names := by
  constructor
  · rintro rfl
    exact winds_of_foldl (mt List.mem_reverse.mpr hnames)
  · intro h
    rw [normalParts, ← List.reverse_nil, h.foldl_eq List.not_mem_nil, List.reverse_reverse]

theorem slash_notMem_foldl (hbefore : ∀ p ∈ before, '/' ∉ p.toList)
    (hparts : ∀ p ∈ parts, '/' ∉ p.toList) :
    ∀ p ∈ parts.foldl (addPart false) before, '/' ∉ p.toList := by
  induction parts generalizing before with
  | nil => exact hbefore
  | cons part parts ih =>
    obtain ⟨hpart, hparts⟩ := List.forall_mem_cons.mp hparts
    refine ih (fun p hp => ?_) hparts
    have hmem : p = ".." ∨ p = part ∨ p ∈ before := by
      unfold addPart at hp
      split_ifs at hp <;> grind
    rcases hmem with rfl | rfl | hmem
    · decide
    · exact hpart
    · exact hbefore p hmem

theorem toList_normalPath_of_top {q : String} (h : Text.startsWith q "/" = true) :
    ∃ cs, (normalPath q).toList = '/' :: cs := by
  obtain ⟨rest, hq⟩ := List.isPrefixOf_iff_prefix.mp h
  have hslashes : (q.toList.takeWhile (· == '/')).length ≠ 0 := by
    rw [← hq]
    simp
  unfold normalPath
  dsimp only
  rw [if_neg hslashes]
  split_ifs <;> simp_all

theorem normalPath_of_below {q : String} (h : Text.startsWith q "/" = false) :
    normalPath q =
      if (Text.joinWith "/" (normalParts false (Text.splitOn '/' q))).isEmpty then "."
      else Text.joinWith "/" (normalParts false (Text.splitOn '/' q)) := by
  have hslashes : (q.toList.takeWhile (· == '/')).length = 0 := by
    unfold Text.startsWith at h
    cases hq : q.toList with
    | nil => rfl
    | cons c cs =>
      rw [hq] at h
      have hc : ¬ c = '/' := by
        rintro rfl
        simp at h
      simp [hc]
  unfold normalPath
  rw [hslashes]
  simp

end Dots

/-! ## Clean paths -/

/-- Names that lead down from a folder, free of separators of either kind. -/
structure CleanPath where
  names : List String
  ne_nil : names ≠ []
  plain : ∀ name ∈ names, PlainPart name
  no_backslash : ∀ name ∈ names, '\\' ∉ name.toList

namespace CleanPath

def text (p : CleanPath) : String := Text.joinWith "/" p.names

variable (p : CleanPath)

theorem splitOn_text : Text.splitOn '/' p.text = p.names :=
  Text.splitOn_joinWith p.ne_nil fun name hname => (p.plain name hname).no_slash

theorem exists_first : ∃ c cs, p.text.toList = c :: cs ∧ c ≠ '/' := by
  obtain ⟨name, rest, hnames⟩ := List.exists_cons_of_ne_nil p.ne_nil
  have hplain := p.plain name (hnames ▸ List.mem_cons_self)
  rw [text, hnames]
  exact Text.exists_first hplain.ne_empty hplain.no_slash rest

theorem text_isEmpty : p.text.isEmpty = false := by
  obtain ⟨name, hname⟩ := List.exists_mem_of_ne_nil _ p.ne_nil
  exact Text.joinWith_isEmpty hname (p.plain name hname).ne_empty

theorem dots_notMem : ".." ∉ p.names := fun h => (p.plain _ h).ne_dots rfl

theorem path_text : (⟨"", p.names⟩ : Path).text = p.text := by
  change (if ("" ++ p.text).isEmpty then "." else "" ++ p.text) = p.text
  rw [String.empty_append, p.text_isEmpty]
  rfl

theorem replaceChar_text : Text.replaceChar '\\' '/' p.text = p.text :=
  Text.replaceChar_joinWith '\\' '/' "/" p.no_backslash

theorem winds_names : Winds [] p.names p.names := by
  refine (normalParts_eq_iff p.dots_notMem).mp ?_
  rw [normalParts, foldl_addPart_plain false [] p.plain, List.append_nil, List.reverse_reverse]

/-- A text means a clean path just if its parts wind there from the repository. -/
theorem normalPath_eq_iff {q : String} : normalPath q = p.text ↔
    Text.startsWith q "/" = false ∧ Winds [] (Text.splitOn '/' q) p.names := by
  cases htop : Text.startsWith q "/" with
  | true =>
    obtain ⟨c, cs, htext, hc⟩ := p.exists_first
    obtain ⟨ds, hds⟩ := toList_normalPath_of_top htop
    refine ⟨fun h => absurd ?_ hc, fun h => absurd h.1 (by decide)⟩
    rw [h, htext] at hds
    exact (List.cons.inj hds).1
  | false =>
    rw [normalPath_of_below htop, ← normalParts_eq_iff p.dots_notMem, and_iff_right rfl]
    have hslash : ∀ part ∈ normalParts false (Text.splitOn '/' q), '/' ∉ part.toList := by
      intro part hpart
      refine slash_notMem_foldl (List.forall_mem_nil _) (fun piece hpiece => ?_) part
        (List.mem_reverse.mp hpart)
      obtain ⟨cs, hcs, rfl⟩ := List.mem_map.mp hpiece
      rw [String.toList_ofList]
      exact Text.not_mem_pieces hcs
    constructor
    · intro h
      split_ifs at h with hempty
      · -- a single dot is no clean path
        have hdot : "." ∈ p.names := by
          rw [← p.splitOn_text, ← h]
          decide
        exact absurd rfl (p.plain _ hdot).ne_dot
      · have hne : normalParts false (Text.splitOn '/' q) ≠ [] := by
          intro hnil
          rw [hnil] at hempty
          exact hempty rfl
        rw [← Text.splitOn_joinWith hne hslash, h, p.splitOn_text]
    · intro h
      rw [h, ← text, p.text_isEmpty]
      rfl

end CleanPath

/-! ## Spellings -/

/-- No search crashes, and what is found has details. -/
def KnowledgeSource.Readable (knowledge : KnowledgeSource) : Prop :=
  ∀ s, knowledge s ≠ .error .crashed ∧
    ∀ hits, knowledge s = .ok hits → ∀ hit ∈ hits, hit.details.isSome = true

theorem KnowledgeSource.Readable.exists_taken {knowledge : KnowledgeSource}
    (h : knowledge.Readable) (use? : Hit → Option ReportedUse) (s : Search) :
    ∃ uses, takenFrom use? (knowledge s) = .ok uses := by
  cases hs : knowledge s with
  | ok hits => exact ⟨_, takenFrom_eq_some_iff.mpr ⟨hits, rfl, (h s).2 hits hs, rfl⟩⟩
  | error fault =>
    cases fault with
    | unavailable message => exact ⟨none, rfl⟩
    | crashed => exact absurd hs (h s).1

theorem exists_joined (calls imports : Option (List ReportedUse)) :
    ∃ uses, joined (.ok calls) (.ok imports) = .ok uses := by
  cases calls with
  | none => exact ⟨[], rfl⟩
  | some calls => cases imports <;> exact ⟨_, rfl⟩

namespace Workspace

/-- The spellings of a clean path: texts in the repository whose dots are worked off, and paths from
the top. -/
inductive Spells (w : Workspace) (repo : Path) (p : CleanPath) (q : String) : Prop
  | below (hne : q ≠ "") (hrelative : (Path.ofText q).isAbsolute = false)
      (h : normalPath (Text.replaceChar '\\' '/' q) = p.text)
  | fromTop (habsolute : (Path.ofText q).isAbsolute = true)
      (h : w.resolve (Path.ofText q) = .ok ⟨"/", repo.parts ++ p.names⟩)

variable {K : Type} [Arith K] {w : Workspace} {repo : Path} {knowledge : KnowledgeSource}
  {symbol q : String} {p : CleanPath} {before : List Search}

theorem relative_of_resolve {file : Path} (hroot : repo.root = "/")
    (h : w.resolve file = .ok ⟨"/", repo.parts ++ p.names⟩) :
    w.relative repo file = .ok p.text := by
  have hbelow : (⟨"/", repo.parts ++ p.names⟩ : Path).relativeTo? repo = some ⟨"", p.names⟩ := by
    rw [Path.relativeTo?, hroot, List.isPrefixOf_iff_prefix.mpr (List.prefix_append _ _),
      List.drop_left]
    rfl
  rw [relative, h]
  dsimp only
  rw [hbelow, Option.getD_some, p.path_text]

theorem Spells.aims (h : w.Spells repo p q) (hroot : repo.root = "/") :
    w.Aims repo knowledge symbol (some q) before p.text before := by
  cases h with
  | below hne hrelative h =>
    refine aims_of_name (by simpa using hne) ?_
    rw [← h]
    exact finds_normalTarget hrelative
  | fromTop habsolute h =>
    have hne : q.isEmpty = false := by
      rw [← Bool.not_eq_true, String.isEmpty_iff]
      rintro rfl
      cases habsolute
    refine aims_of_name hne ?_
    rw [normalTarget, habsolute, relative_of_resolve hroot h]
    exact finds_pure.mpr ⟨rfl, rfl⟩

theorem spells_text (w : Workspace) (repo : Path) (p : CleanPath) : w.Spells repo p p.text := by
  obtain ⟨c, cs, htext, hc⟩ := p.exists_first
  refine .below (fun hempty => ?_) ?_ ?_
  · rw [hempty] at htext
    cases htext
  · simp [Path.ofText, Path.isAbsolute, Path.rootOf, htext, hc]
  · rw [p.replaceChar_text, p.normalPath_eq_iff, p.splitOn_text]
    refine ⟨?_, p.winds_names⟩
    simp [Text.startsWith, htext, List.isPrefixOf, hc.symm]

/-- In a repository without links a clean path is spelt by the path from the top. -/
theorem spells_path (hnamed : w.tree.WellNamed) (hheld : Held w.tree repo.parts)
    (hlinks : ∀ names target, w.tree.below? (repo.parts ++ names) ≠ some (.link target))
    (hnull : ¬ (⟨"/", repo.parts ++ p.names⟩ : Path).hasNull = true) :
    w.resolve ⟨"/", repo.parts ++ p.names⟩ = .ok ⟨"/", repo.parts ++ p.names⟩ ∧
      w.Spells repo p (⟨"/", repo.parts ++ p.names⟩ : Path).text := by
  have hplain : ∀ name ∈ repo.parts ++ p.names, PlainPart name :=
    List.forall_mem_append.mpr ⟨hheld.plain hnamed, p.plain⟩
  have hclear : NoLinks w.tree [] (repo.parts ++ p.names) := by
    intro front hfront hne target
    rcases List.prefix_or_prefix_of_prefix hfront (List.prefix_append repo.parts p.names) with
      habove | ⟨names, rfl⟩
    · exact hheld.noLinks front habove hne target
    · exact hlinks names target
  have hresolve := resolve_of_noLinks rfl hclear hplain hnull
  have hread : Path.ofText (⟨"/", repo.parts ++ p.names⟩ : Path).text =
      ⟨"/", repo.parts ++ p.names⟩ := Path.ofText_text rfl hplain
  exact ⟨hresolve, .fromTop (by rw [hread]; rfl) (by rw [hread]; exact hresolve)⟩

theorem exists_finds_of_readable (hnamed : w.tree.WellNamed) (hroot : repo.root = "/")
    (hheld : Held w.tree repo.parts) (hreadable : knowledge.Readable) {file : Option String}
    {target : String} {after : List Search}
    (haims : w.Aims repo knowledge symbol file before target after) :
    ∃ r done, Finds (w.impactOf K repo knowledge symbol file) before r done := by
  choose usagesOf husages using exists_usages hnamed hroot hheld
  obtain ⟨calls, hcalls⟩ := hreadable.exists_taken Hit.call? (callersOf symbol target)
  obtain ⟨imports, himports⟩ := hreadable.exists_taken Hit.import? (importersOf symbol target)
  obtain ⟨uses, huses⟩ := exists_joined calls imports
  obtain ⟨r, -, hr⟩ := exists_impactFrom K target uses fun s _ => husages s
  have houtcome := impactWith_eq (K := K) haims
  rw [hcalls, himports, huses] at houtcome
  exact ⟨r, outcome_eq_ok_iff.mp (houtcome.trans hr)⟩

/-- **An inquiry does not depend on how the file that changes is spelt.** It ends as with the clean
path. The texts that mean it are those whose parts wind there. -/
theorem impactOf_spelling (hnamed : w.tree.WellNamed) (hroot : repo.root = "/")
    (hheld : Held w.tree repo.parts) (p : CleanPath) :
    (∀ q, w.Spells repo p q → ∀ knowledge symbol before,
      (w.impactOf K repo knowledge symbol (some q)).run.run before =
        (w.impactOf K repo knowledge symbol (some p.text)).run.run before ∧
      (∀ r after, Finds (w.impactOf K repo knowledge symbol (some q)) before r after →
        r.file = p.text) ∧
      (knowledge.Readable →
        ∃ r after, Finds (w.impactOf K repo knowledge symbol (some q)) before r after)) ∧
    (∀ q, normalPath q = p.text ↔
      Text.startsWith q "/" = false ∧ Winds [] (Text.splitOn '/' q) p.names) ∧
    ((∀ names target, w.tree.below? (repo.parts ++ names) ≠ some (.link target)) →
      ¬ (⟨"/", repo.parts ++ p.names⟩ : Path).hasNull = true →
      w.Spells repo p (⟨"/", repo.parts ++ p.names⟩ : Path).text ∧
        w.relative repo ⟨"/", repo.parts ++ p.names⟩ = .ok p.text) := by
  refine ⟨fun q hq knowledge symbol before => ?_, fun q => p.normalPath_eq_iff,
    fun hlinks hnull => ?_⟩
  · have haims : w.Aims repo knowledge symbol (some q) before p.text before := hq.aims hroot
    refine ⟨?_, fun r after h => ?_, fun hreadable =>
      exists_finds_of_readable hnamed hroot hheld hreadable haims⟩
    · rw [haims.run_eq, ((spells_text w repo p).aims hroot).run_eq]
    · rw [Finds, haims.run_eq] at h
      obtain ⟨reported, between, -, h⟩ := finds_bind.mp h
      obtain ⟨table, _, -, h⟩ := finds_bind.mp h
      obtain ⟨rfl, -⟩ := finds_pure.mp h
      rfl
  · obtain ⟨hresolve, hspells⟩ := spells_path hnamed hheld hlinks hnull
    exact ⟨hspells, relative_of_resolve hroot hresolve⟩

end Workspace

namespace Trio

def target : CleanPath := ⟨["a.ts"], by decide, by decide, by decide⟩

theorem locate_detour :
    folder.workspace.locate false (Path.ofText "/repo/..//repo/a.ts") = .ok ["repo", "a.ts"] := by
  have hparts : Path.ofText "/repo/..//repo/a.ts" = ⟨"/", ["repo", "..", "repo", "a.ts"]⟩ := by
    decide
  have hrepo : folder.workspace.tree.below? ([] ++ ["repo"]) = some (.folder folder.entries) :=
    folder.below_repo
  have hmem : ("a.ts", SourceFile.plain "f()") ∈ folder.files := List.mem_cons_self
  have hfile := PlainFolder.below_file hmem
  rw [Workspace.locate, hparts, if_neg (by decide), if_neg (by decide),
    Workspace.start_of_isAbsolute rfl, follow_folder (by decide) (by decide) hrepo, follow_up]
  change follow _ false linkBudget [] ["repo", "a.ts"] = _
  rw [follow_folder (by decide) (by decide) hrepo, List.nil_append,
    follow_file (by decide) (by decide) hfile]
  rfl

end Trio

theorem Workspace.impactOf_spelling_trio :
    Trio.folder.workspace.Spells PlainFolder.repo Trio.target ".\\x/../a.ts" ∧
    Trio.folder.workspace.Spells PlainFolder.repo Trio.target "/repo/..//repo/a.ts" ∧
    ∃ (r : ImpactReport Computed) (after : List Search),
      Finds (Trio.folder.workspace.impactOf Computed PlainFolder.repo Trio.silence "f"
        (some ".\\x/../a.ts")) [] r after ∧
      Finds (Trio.folder.workspace.impactOf Computed PlainFolder.repo Trio.silence "f"
        (some "/repo/..//repo/a.ts")) [] r after ∧ r.file = "a.ts" := by
  have hbelow : Trio.folder.workspace.Spells PlainFolder.repo Trio.target ".\\x/../a.ts" :=
    .below (by decide) (by decide) (by decide)
  have htop : Trio.folder.workspace.Spells PlainFolder.repo Trio.target "/repo/..//repo/a.ts" :=
    .fromTop (by decide) (resolve_of_locate (by decide) Trio.locate_detour)
  have hheld : Held Trio.folder.workspace.tree PlainFolder.repo.parts :=
    held_of_locate rfl Trio.folder.locate_repo
  have hreadable : Trio.silence.Readable := by
    intro s
    refine ⟨(by intro h; cases h), fun hits hhits hit hmem => ?_⟩
    obtain rfl := Except.ok.inj hhits
    exact absurd hmem List.not_mem_nil
  obtain ⟨hspelling, -, -⟩ := impactOf_spelling (K := Computed) Trio.wellNamed rfl hheld Trio.target
  obtain ⟨hsame, hfile, hreport⟩ := hspelling _ hbelow Trio.silence "f" []
  obtain ⟨hsame', -, -⟩ := hspelling _ htop Trio.silence "f" []
  obtain ⟨r, after, h⟩ := hreport hreadable
  exact ⟨hbelow, htop, r, after, h, (hsame'.trans hsame.symm).trans h, hfile r after h⟩

end CodeAtlas
