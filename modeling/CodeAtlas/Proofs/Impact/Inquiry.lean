import CodeAtlas.Impact.Analysis
import CodeAtlas.Proofs.Files.PlainFolder
import CodeAtlas.Proofs.Impact.Spread
import CodeAtlas.Proofs.Outcome

/-!
# What an inquiry is about

An inquiry first finds out which file changes, what is reported and where symbols are used. All that
it returns is read off the change.

* **`Workspace.exists_change`**, **`Workspace.finds_impactOf_of_aims`**: what a successful inquiry
  returns, and when an inquiry succeeds.
-/

namespace CodeAtlas

variable {α β : Type}

/-! ## Successful inquiries -/

/-- The inquiry, begun after some searches, succeeds with a result after some more. -/
def Finds (x : Inquiry α) (before : List Search) (a : α) (after : List Search) : Prop :=
  x.run.run before = (.ok a, after)

section Steps

variable {before after : List Search}

theorem finds_pure {a b : α} : Finds (pure a) before b after ↔ a = b ∧ before = after := by
  constructor
  · intro h
    exact ⟨Except.ok.inj (congrArg Prod.fst h), congrArg Prod.snd h⟩
  · rintro ⟨rfl, rfl⟩
    rfl

theorem not_finds_throw {e : ImpactError} {b : α} : ¬ Finds (throw e) before b after := by
  intro h
  cases congrArg Prod.fst h

theorem run_bind (x : Inquiry α) (f : α → Inquiry β) (before : List Search) :
    (x >>= f).run.run before =
      match x.run.run before with
      | (.ok a, between) => (f a).run.run between
      | (.error e, between) => (.error e, between) := by
  change (match x.run.run before with | (a, between) => (ExceptT.bindCont f a).run between) = _
  cases x.run.run before with
  | mk outcome between => cases outcome <;> rfl

theorem finds_bind {x : Inquiry α} {f : α → Inquiry β} {b : β} :
    Finds (x >>= f) before b after ↔
      ∃ a between, Finds x before a between ∧ Finds (f a) between b after := by
  unfold Finds
  rw [run_bind]
  constructor
  · intro h
    split at h
    · rename_i a between hx
      exact ⟨a, between, hx, h⟩
    · cases congrArg Prod.fst h
  · rintro ⟨a, between, hx, hf⟩
    rw [hx]
    exact hf

theorem finds_located {result : Except BuildError α} {a : α} :
    Finds (located result) before a after ↔ result = .ok a ∧ before = after := by
  cases result with
  | ok b => simp [located, finds_pure]
  | error e => simp [located, not_finds_throw]

theorem finds_mapM {f : α → Inquiry β} {R : α → β → Prop}
    (hf : ∀ x before b after, Finds (f x) before b after ↔ R x b ∧ before = after) {xs : List α}
    {ys : List β} :
    Finds (xs.mapM f) before ys after ↔ List.Forall₂ R xs ys ∧ before = after := by
  induction xs generalizing ys before after with
  | nil =>
    rw [List.mapM_nil, finds_pure, List.forall₂_nil_left_iff, eq_comm]
  | cons x xs ih =>
    simp only [List.mapM_cons, finds_bind, finds_pure, hf, ih]
    constructor
    · rintro ⟨y, s, ⟨hy, rfl⟩, ys', t, ⟨hys, rfl⟩, rfl, rfl⟩
      exact ⟨.cons hy hys, rfl⟩
    · rintro ⟨hforall, rfl⟩
      cases hforall with
      | cons hy hys => exact ⟨_, _, ⟨hy, rfl⟩, _, _, ⟨hys, rfl⟩, rfl, rfl⟩

variable {knowledge : KnowledgeSource} {query : String} {limit : Int}

theorem finds_askFor {answer : Option (List Hit)} :
    Finds (askFor knowledge query limit) before answer after ↔
      after = before ++ [⟨query, limit, some "code"⟩] ∧
        match answer with
        | some hits => knowledge ⟨query, limit, some "code"⟩ = .ok hits
        | none =>
          ∃ message, knowledge ⟨query, limit, some "code"⟩ = .error (.unavailable message) := by
  have hmodify : ∀ (search : Search) (u : PUnit) (between : List Search),
      Finds (modify (· ++ [search])) before u between ↔ between = before ++ [search] := by
    intro search u between
    constructor
    · exact fun h => (congrArg Prod.snd h).symm
    · rintro rfl
      rfl
  unfold askFor
  simp only [finds_bind, hmodify]
  constructor
  · rintro ⟨-, between, rfl, h⟩
    split at h
    · rename_i hits hok
      obtain ⟨rfl, rfl⟩ := finds_pure.mp h
      exact ⟨rfl, hok⟩
    · rename_i message hfault
      obtain ⟨rfl, rfl⟩ := finds_pure.mp h
      exact ⟨rfl, message, hfault⟩
    · exact absurd h not_finds_throw
  · rintro ⟨rfl, h⟩
    refine ⟨⟨⟩, _, rfl, ?_⟩
    cases answer with
    | some hits =>
      rw [h]
      exact finds_pure.mpr ⟨rfl, rfl⟩
    | none =>
      obtain ⟨message, h⟩ := h
      rw [h]
      exact finds_pure.mpr ⟨rfl, rfl⟩

theorem run_askFor_of_crashed (h : knowledge ⟨query, limit, some "code"⟩ = .error .crashed) :
    (askFor knowledge query limit).run.run before =
      (.error .crashed, before ++ [⟨query, limit, some "code"⟩]) := by
  simp only [askFor, h]
  rfl

theorem finds_textDetail {hit : Hit} {name : String} {answer : Option String} :
    Finds (textDetail hit name) before answer after ↔
      (hit.details.isSome = true ∧ answer = (hit.detail? name).bind Json.filledStr?) ∧
        before = after := by
  unfold textDetail Hit.detail?
  cases hit.details with
  | none => simp [not_finds_throw]
  | some details => simp [finds_pure, eq_comm]

end Steps

/-! ## Reported uses -/

def Hit.reportedUse? (relation user file : String) (hit : Hit) : Option ReportedUse := do
  let user ← (hit.detail? user).bind Json.filledStr?
  let file ← (hit.detail? file).bind Json.filledStr?
  return ⟨user, file, relation⟩

def callersOf (symbol file : String) : Search :=
  ⟨"What functions or classes call " ++ symbol ++ " from " ++ file ++ "?", 20, some "code"⟩

def importersOf (symbol file : String) : Search :=
  ⟨"What files import " ++ symbol ++ " from " ++ file ++ "?", 20, some "code"⟩

/-- The uses that a knowledge source reports, if it answers both searches. -/
def reportsOf (knowledge : KnowledgeSource) (symbol file : String) : List ReportedUse :=
  match knowledge (callersOf symbol file), knowledge (importersOf symbol file) with
  | .ok callers, .ok importers =>
    callers.filterMap (Hit.reportedUse? "CALLED_BY" "caller" "caller_file") ++
      importers.filterMap (Hit.reportedUse? "IMPORTED_BY" "importer" "importer_file")
  | _, _ => []

section Reports

variable {before after : List Search} {relation user file symbol : String} {hits : List Hit}

theorem forall₂_reportedUse {found : List (Option ReportedUse)} :
    List.Forall₂ (fun hit answer => hit.details.isSome = true ∧
      answer = Hit.reportedUse? relation user file hit) hits found ↔
    (∀ hit ∈ hits, hit.details.isSome = true) ∧
      found = hits.map (Hit.reportedUse? relation user file) := by
  induction hits generalizing found with
  | nil => simp
  | cons hit hits ih => cases found <;> simp [ih, and_assoc, and_left_comm]

theorem finds_reportedUse (hit : Hit) (before : List Search) (answer : Option ReportedUse)
    (after : List Search) : Finds (reportedUse relation user file hit) before answer after ↔
      (hit.details.isSome = true ∧ answer = hit.reportedUse? relation user file) ∧
        before = after := by
  simp only [reportedUse, finds_bind, finds_textDetail, Hit.reportedUse?]
  constructor
  · rintro ⟨u, _, ⟨⟨hsome, hu⟩, rfl⟩, f, _, ⟨⟨-, hf⟩, rfl⟩, h⟩
    rw [← hu, ← hf]
    cases u <;> cases f <;> obtain ⟨rfl, rfl⟩ := finds_pure.mp h <;> exact ⟨⟨hsome, rfl⟩, rfl⟩
  · rintro ⟨⟨hsome, rfl⟩, rfl⟩
    refine ⟨_, _, ⟨⟨hsome, rfl⟩, rfl⟩, _, _, ⟨⟨hsome, rfl⟩, rfl⟩, ?_⟩
    cases (hit.detail? user).bind Json.filledStr? <;>
      cases (hit.detail? file).bind Json.filledStr? <;> exact finds_pure.mpr ⟨rfl, rfl⟩

variable {uses : List ReportedUse} {callers importers : List Hit}

theorem finds_reportedUses :
    Finds (reportedUses relation user file hits) before uses after ↔
      (∀ hit ∈ hits, hit.details.isSome = true) ∧
        uses = hits.filterMap (Hit.reportedUse? relation user file) ∧ before = after := by
  have hreduce : (hits.map (Hit.reportedUse? relation user file)).reduceOption =
      hits.filterMap (Hit.reportedUse? relation user file) := by
    change List.filterMap id (hits.map (Hit.reportedUse? relation user file)) = _
    rw [List.filterMap_map, Function.id_comp]
  unfold reportedUses
  rw [finds_bind]
  constructor
  · rintro ⟨found, between, hfound, h⟩
    obtain ⟨hforall, rfl⟩ := (finds_mapM finds_reportedUse).mp hfound
    obtain ⟨rfl, rfl⟩ := finds_pure.mp h
    obtain ⟨hdetails, rfl⟩ := forall₂_reportedUse.mp hforall
    exact ⟨hdetails, hreduce, rfl⟩
  · rintro ⟨hdetails, rfl, rfl⟩
    refine ⟨_, _, (finds_mapM finds_reportedUse).mpr
      ⟨forall₂_reportedUse.mpr ⟨hdetails, rfl⟩, rfl⟩, ?_⟩
    exact finds_pure.mpr ⟨hreduce, rfl⟩

variable {knowledge : KnowledgeSource}

theorem reportsOf_of_ok (hcallers : knowledge (callersOf symbol file) = .ok callers)
    (himporters : knowledge (importersOf symbol file) = .ok importers) :
    reportsOf knowledge symbol file =
      callers.filterMap (Hit.reportedUse? "CALLED_BY" "caller" "caller_file") ++
        importers.filterMap (Hit.reportedUse? "IMPORTED_BY" "importer" "importer_file") := by
  simp only [reportsOf, hcallers, himporters]

theorem reportsOf_of_error {fault : SearchFault}
    (h : knowledge (callersOf symbol file) = .error fault ∨
      knowledge (importersOf symbol file) = .error fault) :
    reportsOf knowledge symbol file = [] := by
  rcases h with h | h
  · simp only [reportsOf, h]
  · simp only [reportsOf, h]
    cases knowledge (callersOf symbol file) <;> rfl

theorem relation_of_mem_reportsOf {use : ReportedUse} (h : use ∈ reportsOf knowledge symbol file) :
    use.relation ∈ ["CALLED_BY", "IMPORTED_BY"] := by
  have hrelation : ∀ {hit : Hit} {relation name path : String},
      hit.reportedUse? relation name path = some use → use.relation = relation := by
    intro hit relation name path hhit
    unfold Hit.reportedUse? at hhit
    obtain ⟨u, -, hhit⟩ := Option.bind_eq_some_iff.mp hhit
    obtain ⟨f, -, hhit⟩ := Option.bind_eq_some_iff.mp hhit
    rw [← Option.some.inj hhit]
  unfold reportsOf at h
  split at h
  · rcases List.mem_append.mp h with h | h
    · obtain ⟨hit, -, hhit⟩ := List.mem_filterMap.mp h
      exact hrelation hhit ▸ List.mem_cons_self
    · obtain ⟨hit, -, hhit⟩ := List.mem_filterMap.mp h
      exact hrelation hhit ▸ List.mem_cons_of_mem _ List.mem_cons_self
  · exact absurd h List.not_mem_nil

theorem eq_reportsOf (h : Finds (reportedFor knowledge symbol file) before uses after) :
    uses = reportsOf knowledge symbol file := by
  unfold reportedFor at h
  obtain ⟨answer, _, hcallers, h⟩ := finds_bind.mp h
  obtain ⟨-, hanswer⟩ := finds_askFor.mp hcallers
  cases answer with
  | none =>
    obtain ⟨rfl, -⟩ := finds_pure.mp h
    obtain ⟨message, hfault⟩ := hanswer
    exact (reportsOf_of_error (Or.inl hfault)).symm
  | some callers =>
    obtain ⟨calls, _, hcalls, h⟩ := finds_bind.mp h
    obtain ⟨-, rfl, rfl⟩ := finds_reportedUses.mp hcalls
    obtain ⟨answer, _, himporters, h⟩ := finds_bind.mp h
    obtain ⟨-, hanswer'⟩ := finds_askFor.mp himporters
    cases answer with
    | none =>
      obtain ⟨rfl, -⟩ := finds_pure.mp h
      obtain ⟨message, hfault⟩ := hanswer'
      exact (reportsOf_of_error (Or.inr hfault)).symm
    | some importers =>
      obtain ⟨imports, _, himports, h⟩ := finds_bind.mp h
      obtain ⟨-, rfl, rfl⟩ := finds_reportedUses.mp himports
      obtain ⟨rfl, -⟩ := finds_pure.mp h
      exact (reportsOf_of_ok hanswer hanswer').symm

theorem exists_finds_reportedFor (hcallers : knowledge (callersOf symbol file) = .ok callers)
    (himporters : knowledge (importersOf symbol file) = .ok importers)
    (hdetails : ∀ hit ∈ callers ++ importers, hit.details.isSome = true) (before : List Search) :
    ∃ after, Finds (reportedFor knowledge symbol file) before (reportsOf knowledge symbol file)
      after := by
  rw [reportsOf_of_ok hcallers himporters]
  refine ⟨before ++ [callersOf symbol file] ++ [importersOf symbol file], ?_⟩
  unfold reportedFor
  refine finds_bind.mpr ⟨some callers, _, finds_askFor.mpr ⟨rfl, hcallers⟩, ?_⟩
  refine finds_bind.mpr ⟨_, _, finds_reportedUses.mpr ⟨fun hit hmem => ?_, rfl, rfl⟩, ?_⟩
  · exact hdetails hit (List.mem_append_left _ hmem)
  refine finds_bind.mpr ⟨some importers, _, finds_askFor.mpr ⟨rfl, himporters⟩, ?_⟩
  refine finds_bind.mpr ⟨_, _, finds_reportedUses.mpr ⟨fun hit hmem => ?_, rfl, rfl⟩, ?_⟩
  · exact hdetails hit (List.mem_append_right _ hmem)
  exact finds_pure.mpr ⟨rfl, rfl⟩

end Reports

/-! ## The usages of symbols -/

section Table

variable {before after : List Search} {w : Workspace} {repo : Path} {symbols : List String}

variable {table : Table String (List Usage)}

theorem finds_usageTable :
    Finds (usageTable w repo symbols) before table after ↔
      List.Forall₂ (fun symbol entry => w.usages repo symbol none = .ok entry.2 ∧ entry.1 = symbol)
        symbols.eraseDups table ∧ before = after := by
  refine finds_mapM fun symbol before entry after => ?_
  simp only [finds_bind, finds_located, finds_pure]
  constructor
  · rintro ⟨usages, _, ⟨hok, rfl⟩, rfl, rfl⟩
    exact ⟨⟨hok, rfl⟩, rfl⟩
  · rintro ⟨⟨hok, rfl⟩, rfl⟩
    exact ⟨entry.2, _, ⟨hok, rfl⟩, rfl, rfl⟩

theorem usages_of_table
    (h : List.Forall₂ (fun symbol entry => w.usages repo symbol none = .ok entry.2 ∧
      entry.1 = symbol) symbols table) {symbol : String} (hmem : symbol ∈ symbols) :
    w.usages repo symbol none = .ok (table.getD symbol []) := by
  induction h with
  | nil => exact absurd hmem List.not_mem_nil
  | cons hentry _ ih =>
    rename_i x entry symbols table _
    obtain ⟨hok, hkey⟩ := hentry
    by_cases hx : x = symbol
    · rw [← hx, hok, ← hkey]
      simp [Table.getD, Table.get?]
    · have hne : (entry.1 == symbol) = false := by simpa [hkey] using hx
      have hrest := ih ((List.mem_cons.mp hmem).resolve_left (Ne.symm hx))
      simpa [Table.getD, Table.get?, List.find?_cons, hne] using hrest

theorem exists_usageTable {usagesOf : String → List Usage}
    (h : ∀ symbol ∈ symbols, w.usages repo symbol none = .ok (usagesOf symbol))
    (before : List Search) : ∃ table, Finds (usageTable w repo symbols) before table before := by
  refine ⟨symbols.eraseDups.map fun symbol => (symbol, usagesOf symbol), ?_⟩
  refine finds_usageTable.mpr ⟨?_, rfl⟩
  rw [List.forall₂_map_right_iff, List.forall₂_same]
  exact fun symbol hmem => ⟨h symbol (List.mem_eraseDups.mp hmem), rfl⟩

end Table

/-! ## The change -/

namespace Change

def tracked (c : Change) : List String := c.symbol :: c.reported.map (·.user)

theorem symbol_mem_tracked {c : Change} {d : Nat} {a : Affected} (ha : a ∈ c.level d) :
    a.symbol ∈ c.tracked := by
  induction d generalizing a with
  | zero => exact absurd ha List.not_mem_nil
  | succ d ih =>
    cases d with
    | zero =>
      rcases mem_first ha with ⟨-, hsymbol, -⟩ | ⟨r, hr, rfl⟩
      · rw [hsymbol]
        exact List.mem_cons_self
      · exact List.mem_cons_of_mem _ (List.mem_map_of_mem hr)
    | succ d =>
      obtain ⟨b, hb, -, hsymbol⟩ := exists_nearer ha
      exact hsymbol ▸ ih hb

theorem level_congr {c : Change} {usagesOf : String → List Usage}
    (h : ∀ symbol ∈ c.tracked, usagesOf symbol = c.usagesOf symbol) (d : Nat) :
    ({ c with usagesOf := usagesOf } : Change).level d = c.level d := by
  induction d with
  | zero => rfl
  | succ d ih =>
    cases d with
    | zero => rfl
    | succ d =>
      rw [level, ih, level, spreadFrom, spreadFrom]
      refine List.foldl_ext _ _ _ fun found b hb => ?_
      dsimp only
      rw [h b.symbol (symbol_mem_tracked (onePerFile_subset _ hb))]

/-- The change of a symbol, as the texts and a knowledge source tell it. -/
structure IsOf (c : Change) (w : Workspace) (repo : Path) (knowledge : KnowledgeSource)
    (symbol target : String) : Prop where
  reported : c.reported = reportsOf knowledge symbol target
  symbol : c.symbol = symbol
  root : c.root = target
  scanned : ∀ s ∈ c.tracked, w.usages repo s none = .ok (c.usagesOf s)
  direct : c.direct = (c.usagesOf c.symbol).filter (·.file != c.root)

variable {w : Workspace} {repo : Path} {knowledge : KnowledgeSource} {symbol target : String}

theorem IsOf.affected_eq {c c' : Change} (hc : c.IsOf w repo knowledge symbol target)
    (hc' : c'.IsOf w repo knowledge symbol target) : c'.affected = c.affected := by
  have hsymbol : c'.symbol = c.symbol := hc'.symbol.trans hc.symbol.symm
  have hroot : c'.root = c.root := hc'.root.trans hc.root.symm
  have hreported : c'.reported = c.reported := hc'.reported.trans hc.reported.symm
  have husages : ∀ s ∈ c.tracked, c'.usagesOf s = c.usagesOf s := by
    intro s hs
    have hs' : s ∈ c'.tracked := by rwa [tracked, hsymbol, hreported]
    exact Except.ok.inj ((hc'.scanned s hs').symm.trans (hc.scanned s hs))
  have hdirect : c'.direct = c.direct := by
    rw [hc'.direct, hc.direct, hsymbol, hroot, husages c.symbol List.mem_cons_self]
  have hlevel : ∀ d, c'.level d = c.level d := by
    intro d
    rw [← level_congr husages d, ← hsymbol, ← hroot, ← hreported, ← hdirect]
  rw [c'.affected_eq, c.affected_eq, hlevel, hlevel, hlevel]

end Change

/-! ## The inquiry -/

theorem mem_rankImpacts {K : Type} [Arith K] {root : String} {affected : List Affected}
    {i : Impact K} : i ∈ rankImpacts root affected ↔ ∃ a ∈ affected, a.impact root = i := by
  rw [rankImpacts, List.mem_mergeSort, List.mem_map]

namespace Workspace

variable {K : Type} [Arith K] {w : Workspace} {repo : Path} {knowledge : KnowledgeSource}
  {symbol : String} {file : Option String} {before after : List Search}

/-- **What an inquiry returns** is read off the change that it is about. -/
theorem exists_change {r : ImpactReport K}
    (h : Finds (w.impactOf K repo knowledge symbol file) before r after) :
    ∃ c : Change, c.IsOf w repo knowledge symbol r.file ∧
      r = reportImpacts symbol r.file (rankImpacts symbol c.affected) := by
  unfold impactOf at h
  obtain ⟨told, _, -, h⟩ := finds_bind.mp h
  cases told with
  | none => exact absurd h not_finds_throw
  | some told =>
    obtain ⟨target, _, -, h⟩ := finds_bind.mp h
    obtain ⟨reported, _, hreported, h⟩ := finds_bind.mp h
    obtain ⟨table, _, htable, h⟩ := finds_bind.mp h
    obtain ⟨rfl, -⟩ := finds_pure.mp h
    obtain ⟨hforall, -⟩ := finds_usageTable.mp htable
    refine ⟨⟨fun name => table.getD name [], target, symbol, _, reported⟩,
      ⟨eq_reportsOf hreported, rfl, rfl, fun s hs => ?_, rfl⟩, rfl⟩
    exact usages_of_table hforall (List.mem_eraseDups.mpr hs)

/-- The inquiry finds out that the target is the file that changes. -/
def Aims (w : Workspace) (repo : Path) (knowledge : KnowledgeSource) (symbol : String)
    (file : Option String) (before : List Search) (target : String) (after : List Search) : Prop :=
  ∃ name between, Finds (changedFile w repo knowledge symbol file) before (some name) between ∧
    Finds (normalTarget w repo name) between target after

variable {c : Change} {name target : String} {callers importers : List Hit}

theorem aims_of_name (hname : name.isEmpty = false)
    (htarget : Finds (normalTarget w repo name) before target before) :
    w.Aims repo knowledge symbol (some name) before target before := by
  have hfilter : (some name).filter (!·.isEmpty) = some name := by simp [Option.filter, hname]
  refine ⟨name, before, ?_, htarget⟩
  rw [changedFile, hfilter]
  exact finds_pure.mpr ⟨rfl, rfl⟩

/-- An inquiry succeeds if file, knowledge and usages can be told. -/
theorem finds_impactOf_of_aims {target : String}
    (haims : w.Aims repo knowledge symbol file before target after)
    (hc : c.IsOf w repo knowledge symbol target)
    (hcallers : knowledge (callersOf symbol target) = .ok callers)
    (himporters : knowledge (importersOf symbol target) = .ok importers)
    (hdetails : ∀ hit ∈ callers ++ importers, hit.details.isSome = true) :
    ∃ done, Finds (w.impactOf K repo knowledge symbol file) before
      (reportImpacts symbol target (rankImpacts symbol c.affected)) done := by
  obtain ⟨name, between, hchanged, htarget⟩ := haims
  obtain ⟨done, hreported⟩ := exists_finds_reportedFor hcallers himporters hdetails after
  have htracked : c.tracked = symbol :: (reportsOf knowledge symbol target).map (·.user) := by
    rw [Change.tracked, hc.symbol, hc.reported]
  obtain ⟨table, htable⟩ := exists_usageTable (htracked ▸ hc.scanned) done
  obtain ⟨hforall, -⟩ := finds_usageTable.mp htable
  let c' : Change := ⟨fun name => table.getD name [], target, symbol,
    (table.getD symbol []).filter (·.file != target), reportsOf knowledge symbol target⟩
  have hc' : c'.IsOf w repo knowledge symbol target :=
    ⟨rfl, rfl, rfl, fun s hs => usages_of_table hforall (List.mem_eraseDups.mpr hs), rfl⟩
  refine ⟨done, ?_⟩
  rw [← hc.affected_eq hc']
  unfold impactOf
  refine finds_bind.mpr ⟨some name, between, hchanged, ?_⟩
  refine finds_bind.mpr ⟨target, after, htarget, ?_⟩
  refine finds_bind.mpr ⟨_, done, hreported, ?_⟩
  refine finds_bind.mpr ⟨table, done, htable, ?_⟩
  exact finds_pure.mpr ⟨rfl, rfl⟩

theorem finds_impactOf (hname : name.isEmpty = false)
    (htarget : Finds (normalTarget w repo name) before target before)
    (hc : c.IsOf w repo knowledge symbol target)
    (hcallers : knowledge (callersOf symbol target) = .ok callers)
    (himporters : knowledge (importersOf symbol target) = .ok importers)
    (hdetails : ∀ hit ∈ callers ++ importers, hit.details.isSome = true) :
    ∃ after, Finds (w.impactOf K repo knowledge symbol (some name)) before
      (reportImpacts symbol target (rankImpacts symbol c.affected)) after :=
  finds_impactOf_of_aims (aims_of_name hname htarget) hc hcallers himporters hdetails

theorem finds_normalTarget {name : String} (h : (Path.ofText name).isAbsolute = false) :
    Finds (normalTarget w repo name) before (normalPath (Text.replaceChar '\\' '/' name))
      before := by
  rw [normalTarget, h]
  exact finds_pure.mpr ⟨rfl, rfl⟩

end Workspace

/-! ## In a folder of plain files -/

namespace PlainFolder

variable (p : PlainFolder) {K : Type} [Arith K] {knowledge : KnowledgeSource}
  {symbol target : String}

def usagesOf (symbol : String) : List Usage :=
  p.files.flatMap fun x => (x.2.text.map (usagesInText x.1 · symbol)).getD []

theorem usages_eq (symbol : String) :
    p.workspace.usages repo symbol none = .ok (p.usagesOf symbol) := by
  have hfiles : p.workspace.sourceFiles repo none = .ok (p.files.map fun x => repo.child x.1) := by
    change Except.ok (p.workspace.discover repo repo {}) = _
    rw [p.discover_eq rfl rfl rfl]
  have hscan : ∀ x ∈ p.files, p.workspace.usagesInFile repo symbol (repo.child x.1) =
      .ok ((x.2.text.map (usagesInText x.1 · symbol)).getD []) := by
    intro x hx
    rw [Workspace.usagesInFile, relative_eq hx]
    dsimp only [bind, Except.bind]
    rw [file_eq hx]
    rfl
  have hall : (p.files.map fun x => repo.child x.1).mapM (p.workspace.usagesInFile repo symbol) =
      .ok (p.files.map fun x => (x.2.text.map (usagesInText x.1 · symbol)).getD []) := by
    rw [List.mapM_map]
    exact mapM_eq_ok hscan
  rw [Workspace.usages, hfiles]
  dsimp only [bind, Except.bind]
  rw [hall]
  rfl

def change (knowledge : KnowledgeSource) (symbol target : String) : Change where
  usagesOf := p.usagesOf
  root := target
  symbol := symbol
  direct := (p.usagesOf symbol).filter (·.file != target)
  reported := reportsOf knowledge symbol target

variable (knowledge symbol target) in
theorem isOf_change :
    (p.change knowledge symbol target).IsOf p.workspace repo knowledge symbol target :=
  ⟨rfl, rfl, rfl, fun s _ => p.usages_eq s, rfl⟩

end PlainFolder

end CodeAtlas
