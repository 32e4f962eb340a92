import CodeAtlas.Proofs.Impact.Target
import CodeAtlas.Proofs.Impact.TextOnly
import Mathlib.Logic.Function.Basic

/-!
# A search that cannot be made

An inquiry asks what calls a symbol and what imports it. If one of these searches cannot be made,
what the other one finds is lost too.

* **`Workspace.failed_search_loses_both`**: what a failed search costs.
-/

namespace CodeAtlas

variable {α β : Type}

/-! ## How an inquiry ends -/

def outcome (x : Inquiry α) (before : List Search) : Except ImpactError α := (x.run.run before).1

theorem outcome_eq_ok_iff {x : Inquiry α} {before : List Search} {a : α} :
    outcome x before = .ok a ↔ ∃ after, Finds x before a after := by
  constructor
  · intro h
    exact ⟨(x.run.run before).2, Prod.ext h rfl⟩
  · rintro ⟨after, h⟩
    exact congrArg Prod.fst h

/-- The inquiry makes no search, and how it ends does not depend on those made before. -/
def Quiet (x : Inquiry α) : Prop := ∀ before, x.run.run before = (outcome x [], before)

theorem quiet_pure (a : α) : Quiet (pure a) := fun _ => rfl

theorem quiet_located (result : Except BuildError α) : Quiet (located result) := by
  intro before
  cases result with
  | ok a => rfl
  | error e => rfl

theorem Quiet.bind {x : Inquiry α} {f : α → Inquiry β} (hx : Quiet x) (hf : ∀ a, Quiet (f a)) :
    Quiet (x >>= f) := by
  intro before
  rw [outcome, run_bind, run_bind, hx before, hx []]
  cases outcome x [] with
  | ok a => exact hf a before
  | error e => rfl

theorem Quiet.mapM {f : α → Inquiry β} (hf : ∀ a, Quiet (f a)) (xs : List α) :
    Quiet (xs.mapM f) := by
  induction xs with
  | nil => exact quiet_pure []
  | cons x xs ih =>
    rw [List.mapM_cons]
    exact (hf x).bind fun y => ih.bind fun ys => quiet_pure (y :: ys)

theorem outcome_bind {x : Inquiry α} {f : α → Inquiry β} (hf : ∀ a, Quiet (f a))
    (before : List Search) :
    outcome (x >>= f) before = outcome x before >>= fun a => outcome (f a) [] := by
  unfold outcome
  rw [run_bind]
  cases x.run.run before with
  | mk out between =>
    cases out with
    | ok a =>
      dsimp only
      rw [hf a between]
      rfl
    | error e => rfl

/-! ## What is taken from the answers -/

def Hit.call? : Hit → Option ReportedUse := Hit.reportedUse? "CALLED_BY" "caller" "caller_file"

def Hit.import? : Hit → Option ReportedUse :=
  Hit.reportedUse? "IMPORTED_BY" "importer" "importer_file"

def usesIn (use? : Hit → Option ReportedUse) (hits : List Hit) :
    Except ImpactError (List ReportedUse) :=
  if hits.all (·.details.isSome) then .ok (hits.filterMap use?) else .error .noDetails

/-- What is taken from the answer to a search; nothing if the search cannot be made. -/
def takenFrom (use? : Hit → Option ReportedUse) :
    Except SearchFault (List Hit) → Except ImpactError (Option (List ReportedUse))
  | .ok hits => (usesIn use? hits).map some
  | .error (.unavailable _) => .ok none
  | .error .crashed => .error .crashed

/-- What both searches report; nothing if either cannot be made. -/
def joined (calls imports : Except ImpactError (Option (List ReportedUse))) :
    Except ImpactError (List ReportedUse) := do
  match ← calls with
  | none => return []
  | some calls =>
    match ← imports with
    | none => return []
    | some imports => return calls ++ imports

/-- The search can be made, its hits have details, and these are reported. -/
def Tells (use? : Hit → Option ReportedUse) (answer : Except SearchFault (List Hit))
    (uses : List ReportedUse) : Prop :=
  ∃ hits, answer = .ok hits ∧ (∀ hit ∈ hits, hit.details.isSome = true) ∧
    hits.filterMap use? = uses

def Unavailable (answer : Except SearchFault (List Hit)) : Prop :=
  ∃ message, answer = .error (.unavailable message)

section Taken

variable {use? : Hit → Option ReportedUse} {answer : Except SearchFault (List Hit)}

theorem tells_nil (use? : Hit → Option ReportedUse) : Tells use? (.ok []) [] :=
  ⟨[], rfl, fun _ h => absurd h List.not_mem_nil, rfl⟩

theorem Tells.unique {uses uses' : List ReportedUse} (h : Tells use? answer uses)
    (h' : Tells use? answer uses') : uses = uses' := by
  obtain ⟨hits, hhits, -, rfl⟩ := h
  obtain ⟨hits', hhits', -, rfl⟩ := h'
  rw [Except.ok.inj (hhits.symm.trans hhits')]

variable (imports : Except ImpactError (Option (List ReportedUse))) {uses : List ReportedUse}

theorem usesIn_eq_ok_iff {hits : List Hit} :
    usesIn use? hits = .ok uses ↔
      (∀ hit ∈ hits, hit.details.isSome = true) ∧ hits.filterMap use? = uses := by
  unfold usesIn
  split_ifs with hall
  · rw [List.all_eq_true] at hall
    rw [Except.ok.injEq, and_iff_right hall]
  · rw [List.all_eq_true] at hall
    simp [hall]

theorem takenFrom_eq_some_iff :
    takenFrom use? answer = .ok (some uses) ↔ Tells use? answer uses := by
  unfold Tells
  cases answer with
  | ok hits =>
    rw [takenFrom]
    cases h : usesIn use? hits with
    | ok found => simp [Except.map, ← usesIn_eq_ok_iff, h]
    | error e => simp [Except.map, ← usesIn_eq_ok_iff, h]
  | error fault => cases fault <;> simp [takenFrom]

theorem takenFrom_eq_none_iff : takenFrom use? answer = .ok none ↔ Unavailable answer := by
  unfold Unavailable
  cases answer with
  | ok hits =>
    rw [takenFrom]
    cases usesIn use? hits <;> simp [Except.map]
  | error fault => cases fault <;> simp [takenFrom]

theorem joined_none :
    joined (.ok none) imports = .ok [] := rfl

theorem joined_some_none (calls : List ReportedUse) :
    joined (.ok (some calls)) (.ok none) = .ok [] := rfl

theorem joined_nil_left :
    joined (.ok (some [])) imports = imports >>= fun uses => .ok (uses.getD []) := by
  cases imports with
  | error e => rfl
  | ok uses => cases uses <;> rfl

theorem joined_nil_right (calls : Except ImpactError (Option (List ReportedUse))) :
    joined calls (.ok (some [])) = calls >>= fun uses => .ok (uses.getD []) := by
  cases calls with
  | error e => rfl
  | ok uses =>
    cases uses with
    | none => rfl
    | some calls => exact congrArg Except.ok (List.append_nil calls)

theorem run_reportedUses (relation user file : String) (hits : List Hit) (before : List Search) :
    (reportedUses relation user file hits).run.run before =
      (usesIn (Hit.reportedUse? relation user file) hits, before) := by
  unfold usesIn
  split_ifs with hall
  · exact finds_reportedUses.mpr ⟨List.all_eq_true.mp hall, rfl, rfl⟩
  · have hread : (hits.mapM (reportedUse relation user file)).run.run before =
        (.error .noDetails, before) := by
      induction hits with
      | nil => exact absurd rfl hall
      | cons hit hits ih =>
        rw [List.mapM_cons, run_bind]
        cases hdetails : hit.details with
        | none =>
          have hrun : (reportedUse relation user file hit).run.run before =
              (.error .noDetails, before) := by
            rw [reportedUse, run_bind, textDetail, hdetails]
            rfl
          rw [hrun]
        | some details =>
          have hrun : (reportedUse relation user file hit).run.run before = (.ok _, before) :=
            (finds_reportedUse hit before _ before).mpr ⟨⟨by rw [hdetails]; rfl, rfl⟩, rfl⟩
          have hrest : ¬ hits.all (·.details.isSome) = true := by
            rwa [List.all_cons, hdetails, Option.isSome_some, Bool.true_and] at hall
          rw [hrun]
          dsimp only
          rw [run_bind, ih hrest]
    rw [reportedUses, run_bind, hread]

end Taken

/-! ## The two searches -/

section Answers

variable {knowledge other : KnowledgeSource} {symbol file : String}

def asked : Except SearchFault (List Hit) → Except ImpactError (Option (List Hit))
  | .ok hits => .ok (some hits)
  | .error (.unavailable _) => .ok none
  | .error .crashed => .error .crashed

theorem run_askFor (query : String) (limit : Int) (before : List Search) :
    (askFor knowledge query limit).run.run before =
      (asked (knowledge ⟨query, limit, some "code"⟩), before ++ [⟨query, limit, some "code"⟩]) := by
  cases h : knowledge ⟨query, limit, some "code"⟩ with
  | ok hits => exact finds_askFor.mpr ⟨rfl, h⟩
  | error fault =>
    cases fault with
    | unavailable message => exact finds_askFor.mpr ⟨rfl, message, h⟩
    | crashed => exact run_askFor_of_crashed h

theorem askFor_congr {query : String} {limit : Int}
    (h : knowledge ⟨query, limit, some "code"⟩ = other ⟨query, limit, some "code"⟩) :
    askFor knowledge query limit = askFor other query limit := by
  simp only [askFor, h]

/-- **What is reported** is what is taken from the two answers. -/
theorem outcome_reportedFor (before : List Search) :
    outcome (reportedFor knowledge symbol file) before =
      joined (takenFrom Hit.call? (knowledge (callersOf symbol file)))
        (takenFrom Hit.import? (knowledge (importersOf symbol file))) := by
  unfold outcome reportedFor
  rw [run_bind, run_askFor]
  cases hcallers : knowledge (callersOf symbol file) with
  | error fault =>
    dsimp only [callersOf] at hcallers
    rw [hcallers]
    cases fault <;> rfl
  | ok callers =>
    dsimp only [callersOf] at hcallers
    rw [hcallers]
    dsimp only [asked]
    rw [run_bind, run_reportedUses]
    change _ = joined ((usesIn Hit.call? callers).map some) _
    rw [Hit.call?]
    cases usesIn (Hit.reportedUse? "CALLED_BY" "caller" "caller_file") callers with
    | error e => rfl
    | ok calls =>
      dsimp only
      rw [run_bind, run_askFor]
      cases himporters : knowledge (importersOf symbol file) with
      | error fault =>
        dsimp only [importersOf] at himporters
        rw [himporters]
        cases fault <;> rfl
      | ok importers =>
        dsimp only [importersOf] at himporters
        rw [himporters]
        dsimp only [asked]
        rw [run_bind, run_reportedUses]
        change _ = joined _ ((usesIn Hit.import? importers).map some)
        rw [Hit.import?]
        cases usesIn (Hit.reportedUse? "IMPORTED_BY" "importer" "importer_file") importers <;> rfl

end Answers

deriving instance DecidableEq for Search

/-- The source, but with these hits for one search. -/
def KnowledgeSource.finding (knowledge : KnowledgeSource) (s : Search) (hits : List Hit) :
    KnowledgeSource := Function.update knowledge s (.ok hits)

/-- The source, but with empty answers to both searches for what depends on a symbol. -/
def KnowledgeSource.silenced (knowledge : KnowledgeSource) (symbol target : String) :
    KnowledgeSource :=
  (knowledge.finding (callersOf symbol target) []).finding (importersOf symbol target) []

def definitionSearch (symbol : String) : Search := ⟨"definition of " ++ symbol, 5, some "code"⟩

section Finding

variable {knowledge other : KnowledgeSource} {symbol file target : String} {s : Search}

theorem finding_self (hits : List Hit) : knowledge.finding s hits s = .ok hits :=
  Function.update_self ..

theorem finding_of_ne {s' : Search} (h : s' ≠ s) (hits : List Hit) :
    knowledge.finding s hits s' = knowledge s' :=
  Function.update_of_ne h ..

variable (symbol target) in
theorem callersOf_ne_importersOf : callersOf symbol target ≠ importersOf symbol target := by
  intro h
  have hquery := congrArg (fun s => s.query.toList[6]?) h
  dsimp only [callersOf, importersOf] at hquery
  simp only [String.toList_append, List.append_assoc] at hquery
  rw [List.getElem?_append_left (by decide), List.getElem?_append_left (by decide)] at hquery
  exact absurd hquery (by decide)

theorem silenced_callers : knowledge.silenced symbol target (callersOf symbol target) = .ok [] := by
  rw [KnowledgeSource.silenced, finding_of_ne (callersOf_ne_importersOf symbol target),
    finding_self]

theorem silenced_importers :
    knowledge.silenced symbol target (importersOf symbol target) = .ok [] :=
  finding_self []

theorem definitionSearch_ne (h : s.limit = 20) : definitionSearch symbol ≠ s := by
  rintro rfl
  cases h

theorem changedFile_congr {w : Workspace} {repo : Path} {file : Option String}
    (h : knowledge (definitionSearch symbol) = other (definitionSearch symbol)) :
    changedFile w repo knowledge symbol file = changedFile w repo other symbol file := by
  simp only [changedFile, definitionOf, askFor_congr h]

end Finding

/-! ## The inquiry -/

namespace Workspace

def impactWith (K : Type) [Arith K] (w : Workspace) (repo : Path) (symbol : String)
    (file : Option String) (before : List Search) (knowledge : KnowledgeSource) :
    Except ImpactError (ImpactReport K) :=
  outcome (w.impactOf K repo knowledge symbol file) before

variable {K : Type} [Arith K] {w : Workspace} {repo : Path} {knowledge other : KnowledgeSource}
  {symbol target : String} {file : Option String} {before after : List Search}

theorem Aims.congr (h : w.Aims repo knowledge symbol file before target after)
    (heq : knowledge (definitionSearch symbol) = other (definitionSearch symbol)) :
    w.Aims repo other symbol file before target after := by
  unfold Aims at h ⊢
  rwa [← changedFile_congr heq]

theorem Aims.finding (h : w.Aims repo knowledge symbol file before target after) (s : Search)
    (hs : s.limit = 20) (hits : List Hit) :
    w.Aims repo (knowledge.finding s hits) symbol file before target after :=
  h.congr (finding_of_ne (definitionSearch_ne hs) hits).symm

variable (reported : List ReportedUse) {us : List Usage}

theorem quiet_impactFrom :
    Quiet (impactFrom K w repo symbol target reported) := by
  refine Quiet.bind (Quiet.mapM (fun name => ?_) _) fun table => quiet_pure _
  exact (quiet_located _).bind fun us => quiet_pure _

theorem Aims.run_eq (h : w.Aims repo knowledge symbol file before target after) :
    (w.impactOf K repo knowledge symbol file).run.run before =
      (reportedFor knowledge symbol target >>= impactFrom K w repo symbol target).run.run
        after := by
  obtain ⟨name, between, hname, htarget⟩ := h
  rw [Finds] at hname htarget
  rw [impactOf, run_bind, hname]
  dsimp only
  rw [impactIn, run_bind, htarget]

/-- **An inquiry ends as the answers to its two searches say.** -/
theorem impactWith_eq (haims : w.Aims repo knowledge symbol file before target after) :
    w.impactWith K repo symbol file before knowledge =
      joined (takenFrom Hit.call? (knowledge (callersOf symbol target)))
        (takenFrom Hit.import? (knowledge (importersOf symbol target))) >>= fun reported =>
          outcome (impactFrom K w repo symbol target reported) [] := by
  rw [impactWith, outcome, haims.run_eq]
  change outcome _ _ = _
  rw [outcome_bind quiet_impactFrom, outcome_reportedFor]

/-- **An impact without a line of text** is listed just if something is reported. -/
theorem lists_reported_iff {r : ImpactReport K}
    (h : Finds (w.impactOf K repo knowledge symbol file) before r after) :
    (∃ i ∈ r.impacts, ∃ u ∈ i.usages, u.line = 0) ↔ reportsOf knowledge symbol r.file ≠ [] := by
  obtain ⟨c, hc, hr⟩ := exists_change h
  have himpacts : ∀ i, i ∈ r.impacts ↔ ∃ a ∈ c.affected, a.impact symbol = i := by
    intro i
    rw [hr]
    exact mem_rankImpacts
  rw [← hc.reported]
  constructor
  · rintro ⟨i, hi, u, hu, hline⟩ hnone
    obtain ⟨a, ha, rfl⟩ := (himpacts i).mp hi
    rcases Change.usages_eq_listed hc ha with husages | ⟨use, huse, -⟩
    · -- what is found in a text has a line from one on
      change u ∈ a.usages at hu
      rw [husages] at hu
      obtain ⟨x, -, hx⟩ := List.mem_flatMap.mp hu
      have hpos := (mem_usagesFrom (List.mem_filter.mp hx).1).2.1
      omega
    · rw [hnone] at huse
      exact absurd huse List.not_mem_nil
  · intro hne
    obtain ⟨use, huse⟩ := List.exists_mem_of_ne_nil _ hne
    obtain ⟨a, ha, -, htag⟩ := Change.exists_of_reported huse
    have hmem : a.impact symbol ∈ r.impacts :=
      (himpacts _).mpr ⟨a, Change.mem_affected.mpr (Or.inl ha), rfl⟩
    rcases Change.mem_first ha with ⟨-, -, hfilled, husages⟩ | ⟨use', -, rfl⟩
    · -- the relation of a reported use is no kind of use
      obtain ⟨u, hu⟩ := List.exists_mem_of_ne_nil _ hfilled
      rw [husages] at hu
      obtain ⟨hdirect, hof⟩ := List.mem_filter.mp hu
      simp only [Bool.and_eq_true, beq_iff_eq] at hof
      have hkind := hc.toScanned.kinds u hdirect
      rw [hof.2, htag] at hkind
      have hdisjoint : ∀ x ∈ relationNames, x ∉ usageKinds := by decide
      exact absurd hkind (hdisjoint _ (hc.toScanned.relations use huse))
    · exact ⟨_, hmem, use'.usage, List.mem_singleton_self _, rfl⟩

/-! ## What a failed search costs -/

variable (K target) in
theorem exists_impactFrom {usagesOf : String → List Usage}
    (h : ∀ s ∈ symbol :: reported.map (·.user), w.usages repo s none = .ok (usagesOf s)) :
    ∃ r : ImpactReport K, r.file = target ∧
      outcome (impactFrom K w repo symbol target reported) [] = .ok r := by
  obtain ⟨table, htable⟩ := exists_usageTable h []
  have hfinds : Finds (impactFrom K w repo symbol target reported) [] _ [] :=
    finds_bind.mpr ⟨table, [], htable, finds_pure.mpr ⟨rfl, rfl⟩⟩
  exact ⟨_, rfl, outcome_eq_ok_iff.mpr ⟨[], hfinds⟩⟩

variable (K target) in
theorem exists_impactFrom_nil (hus : w.usages repo symbol none = .ok us) :
    ∃ r : ImpactReport K, r.file = target ∧
      outcome (impactFrom K w repo symbol target []) [] = .ok r := by
  have hscan : ∀ s ∈ [symbol], w.usages repo s none = .ok us := fun s hs => by
    rwa [List.mem_singleton.mp hs]
  exact exists_impactFrom K target [] hscan

/-- Two sources, one of which reports nothing, are told apart by what the other reports. -/
theorem impactWith_eq_iff {uses : List ReportedUse} (hus : w.usages repo symbol none = .ok us)
    (hnone : reportsOf knowledge symbol target = []) (huses : reportsOf other symbol target = uses)
    (hknowledge : w.impactWith K repo symbol file before knowledge =
      outcome (impactFrom K w repo symbol target []) [])
    (hother : w.impactWith K repo symbol file before other =
      outcome (impactFrom K w repo symbol target uses) []) :
    w.impactWith K repo symbol file before knowledge =
        w.impactWith K repo symbol file before other ↔
      uses = [] := by
  constructor
  · intro heq
    obtain ⟨r, rfl, hr⟩ := exists_impactFrom_nil K target hus
    obtain ⟨_, hfinds⟩ := outcome_eq_ok_iff.mp (hknowledge.trans hr)
    obtain ⟨_, hfinds'⟩ := outcome_eq_ok_iff.mp (heq.symm.trans (hknowledge.trans hr))
    by_contra hne
    have hlisted := (lists_reported_iff hfinds').mpr (huses.trans_ne hne)
    exact (lists_reported_iff hfinds).mp hlisted hnone
  · rintro rfl
    rw [hknowledge, hother]

section Lost

variable (haims : w.Aims repo knowledge symbol file before target after)

include haims

theorem impactWith_silenced :
    w.impactWith K repo symbol file before (knowledge.silenced symbol target) =
      outcome (impactFrom K w repo symbol target []) [] := by
  have haims' : w.Aims repo (knowledge.silenced symbol target) symbol file before target after :=
    (haims.finding (callersOf symbol target) rfl []).finding (importersOf symbol target) rfl []
  rw [impactWith_eq haims', silenced_callers, silenced_importers]
  rfl

theorem impactWith_of_lost_callers (hlost : Unavailable (knowledge (callersOf symbol target))) :
    w.impactWith K repo symbol file before knowledge =
      outcome (impactFrom K w repo symbol target []) [] := by
  rw [impactWith_eq haims, takenFrom_eq_none_iff.mpr hlost, joined_none]
  rfl

theorem impactWith_of_lost_importers (hlost : Unavailable (knowledge (importersOf symbol target)))
    (hread : Unavailable (knowledge (callersOf symbol target)) ∨
      ∃ uses, Tells Hit.call? (knowledge (callersOf symbol target)) uses) :
    w.impactWith K repo symbol file before knowledge =
      outcome (impactFrom K w repo symbol target []) [] := by
  rcases hread with hnone | ⟨uses, huses⟩
  · exact impactWith_of_lost_callers haims hnone
  · rw [impactWith_eq haims, takenFrom_eq_none_iff.mpr hlost, takenFrom_eq_some_iff.mpr huses,
      joined_some_none]
    rfl

theorem lost_callers_iff (hlost : Unavailable (knowledge (callersOf symbol target)))
    {us : List Usage} (hus : w.usages repo symbol none = .ok us) :
    w.impactWith K repo symbol file before knowledge =
        w.impactWith K repo symbol file before (knowledge.finding (callersOf symbol target) []) ↔
      Unavailable (knowledge (importersOf symbol target)) ∨
        Tells Hit.import? (knowledge (importersOf symbol target)) [] := by
  have hsame : knowledge.finding (callersOf symbol target) [] (importersOf symbol target) =
      knowledge (importersOf symbol target) :=
    finding_of_ne (callersOf_ne_importersOf symbol target).symm []
  have hlosing : w.impactWith K repo symbol file before knowledge =
      outcome (impactFrom K w repo symbol target []) [] := impactWith_of_lost_callers haims hlost
  have hother := impactWith_eq (K := K) (haims.finding (callersOf symbol target) rfl [])
  rw [finding_self, hsame, takenFrom_eq_some_iff.mpr (tells_nil Hit.call?), joined_nil_left]
    at hother
  rw [← takenFrom_eq_none_iff, ← takenFrom_eq_some_iff]
  cases htaken : takenFrom Hit.import? (knowledge (importersOf symbol target)) with
  | error e =>
    rw [htaken] at hother
    obtain ⟨r, -, hr⟩ := exists_impactFrom_nil K target hus
    rw [hlosing, hr, hother]
    refine iff_of_false (fun h => ?_) fun h => ?_
    · cases h
    · rcases h with h | h <;> cases h
  | ok taken =>
    rw [htaken] at hother
    cases taken with
    | none => exact iff_of_true (hlosing.trans hother.symm) (Or.inl rfl)
    | some uses =>
      obtain ⟨hits, hhits, -, huses⟩ := takenFrom_eq_some_iff.mp htaken
      obtain ⟨message, hmessage⟩ := hlost
      have hreports : reportsOf (knowledge.finding (callersOf symbol target) []) symbol target =
          uses := by
        rw [reportsOf_of_ok (finding_self []) (hsame.trans hhits)]
        exact huses
      rw [impactWith_eq_iff hus (reportsOf_of_error (Or.inl hmessage)) hreports hlosing hother]
      simp

theorem lost_importers_iff (hlost : Unavailable (knowledge (importersOf symbol target)))
    {us : List Usage} (hus : w.usages repo symbol none = .ok us) :
    w.impactWith K repo symbol file before knowledge =
        w.impactWith K repo symbol file before (knowledge.finding (importersOf symbol target) []) ↔
      ∀ uses, Tells Hit.call? (knowledge (callersOf symbol target)) uses → uses = [] := by
  have hsame : knowledge.finding (importersOf symbol target) [] (callersOf symbol target) =
      knowledge (callersOf symbol target) :=
    finding_of_ne (callersOf_ne_importersOf symbol target) []
  have hlosing := impactWith_eq (K := K) haims
  have hother := impactWith_eq (K := K) (haims.finding (importersOf symbol target) rfl [])
  rw [finding_self, hsame, takenFrom_eq_some_iff.mpr (tells_nil Hit.import?), joined_nil_right]
    at hother
  rw [takenFrom_eq_none_iff.mpr hlost] at hlosing
  cases htaken : takenFrom Hit.call? (knowledge (callersOf symbol target)) with
  | error e =>
    rw [htaken] at hother hlosing
    refine iff_of_true (hlosing.trans hother.symm) fun uses huses => ?_
    rw [takenFrom_eq_some_iff.mpr huses] at htaken
    cases htaken
  | ok taken =>
    rw [htaken] at hother hlosing
    cases taken with
    | none =>
      refine iff_of_true (hlosing.trans hother.symm) fun uses huses => ?_
      rw [takenFrom_eq_some_iff.mpr huses] at htaken
      cases htaken
    | some calls =>
      obtain ⟨hits, hhits, -, huses⟩ := takenFrom_eq_some_iff.mp htaken
      obtain ⟨message, hmessage⟩ := hlost
      have hreports : reportsOf (knowledge.finding (importersOf symbol target) []) symbol target =
          calls := by
        rw [reportsOf_of_ok (hsame.trans hhits) (finding_self []), List.filterMap_nil,
          List.append_nil]
        exact huses
      rw [impactWith_eq_iff hus (reportsOf_of_error (Or.inr hmessage)) hreports hlosing hother]
      simp only [← takenFrom_eq_some_iff, htaken, Except.ok.injEq, Option.some.injEq, forall_eq']

/-- **What a failed search costs.** The inquiry ends as if neither search had found anything, and so
as with an empty answer only where the other one tells of no uses. -/
theorem failed_search_loses_both :
    (Unavailable (knowledge (callersOf symbol target)) →
      w.impactWith K repo symbol file before knowledge =
        w.impactWith K repo symbol file before (knowledge.silenced symbol target) ∧
      ∀ us, w.usages repo symbol none = .ok us →
        (w.impactWith K repo symbol file before knowledge =
            w.impactWith K repo symbol file before
              (knowledge.finding (callersOf symbol target) []) ↔
          Unavailable (knowledge (importersOf symbol target)) ∨
            Tells Hit.import? (knowledge (importersOf symbol target)) [])) ∧
    (Unavailable (knowledge (importersOf symbol target)) →
      ((Unavailable (knowledge (callersOf symbol target)) ∨
          ∃ uses, Tells Hit.call? (knowledge (callersOf symbol target)) uses) →
        w.impactWith K repo symbol file before knowledge =
          w.impactWith K repo symbol file before (knowledge.silenced symbol target)) ∧
      ∀ us, w.usages repo symbol none = .ok us →
        (w.impactWith K repo symbol file before knowledge =
            w.impactWith K repo symbol file before
              (knowledge.finding (importersOf symbol target) []) ↔
          ∀ uses, Tells Hit.call? (knowledge (callersOf symbol target)) uses → uses = [])) := by
  refine ⟨fun hlost => ⟨?_, fun us hus => ?_⟩, fun hlost => ⟨fun hread => ?_, fun us hus => ?_⟩⟩
  · rw [impactWith_of_lost_callers haims hlost, impactWith_silenced haims]
  · exact lost_callers_iff haims hlost hus
  · rw [impactWith_of_lost_importers haims hlost hread, impactWith_silenced haims]
  · exact lost_importers_iff haims hlost hus

end Lost

end Workspace

/-! ## A source with an outage -/

namespace Outage

open PlainFolder (repo)

def hit : Hit where
  score := .whole 1
  details := some [("caller", .str "g"), ("caller_file", .str "b.ts"), ("importer", .str "h"),
    ("importer_file", .str "c.ts")]

/-- Whatever is asked, this hit is found, but one search cannot be made. -/
def knowledge (down : Search) : KnowledgeSource := fun s =>
  if s = down then .error (.unavailable "") else .ok [hit]

theorem unavailable (down : Search) : Unavailable (knowledge down down) :=
  ⟨"", if_pos rfl⟩

theorem aims (source : KnowledgeSource) :
    Neighbour.folder.workspace.Aims repo source "f" (some "a.ts") [] "a.ts" [] :=
  Workspace.aims_of_name (by decide) (Workspace.finds_normalTarget (by decide))

theorem tells_call : Tells Hit.call?
    (knowledge (importersOf "f" "a.ts") (callersOf "f" "a.ts")) [⟨"g", "b.ts", "CALLED_BY"⟩] :=
  ⟨[hit], if_neg (callersOf_ne_importersOf "f" "a.ts"), by decide, rfl⟩

theorem tells_import : Tells Hit.import?
    (knowledge (callersOf "f" "a.ts") (importersOf "f" "a.ts")) [⟨"h", "c.ts", "IMPORTED_BY"⟩] :=
  ⟨[hit], if_neg (callersOf_ne_importersOf "f" "a.ts").symm, by decide, rfl⟩

theorem exists_listed {source : KnowledgeSource} {callers : List Hit} {files : List String}
    (hcallers : source (callersOf "f" "a.ts") = .ok callers)
    (himporters : source (importersOf "f" "a.ts") = .ok [])
    (hdetails : ∀ hit ∈ callers, hit.details.isSome = true)
    (hfiles : (rankImpacts "f" (Neighbour.folder.change source "f" "a.ts").affected :
      List (Impact Computed)).map (·.file) = files) :
    ∃ r, Neighbour.folder.workspace.impactWith Computed repo "f" (some "a.ts") [] source = .ok r ∧
      r.impacts.map (·.file) = files := by
  rw [← List.append_nil callers] at hdetails
  obtain ⟨done, h⟩ := Workspace.finds_impactOf_of_aims (K := Computed) (aims source)
    (Neighbour.folder.isOf_change source "f" "a.ts") hcallers himporters hdetails
  exact ⟨_, outcome_eq_ok_iff.mpr ⟨done, h⟩, hfiles⟩

end Outage

namespace Workspace

theorem failed_search_loses_both_outage :
    (Neighbour.folder.workspace.impactWith Computed PlainFolder.repo "f" (some "a.ts") []
        (Outage.knowledge (callersOf "f" "a.ts")) =
      Neighbour.folder.workspace.impactWith Computed PlainFolder.repo "f" (some "a.ts") []
        ((Outage.knowledge (callersOf "f" "a.ts")).silenced "f" "a.ts") ∧
    Neighbour.folder.workspace.impactWith Computed PlainFolder.repo "f" (some "a.ts") []
        (Outage.knowledge (callersOf "f" "a.ts")) ≠
      Neighbour.folder.workspace.impactWith Computed PlainFolder.repo "f" (some "a.ts") []
        ((Outage.knowledge (callersOf "f" "a.ts")).finding (callersOf "f" "a.ts") [])) ∧
    Neighbour.folder.workspace.impactWith Computed PlainFolder.repo "f" (some "a.ts") []
        (Outage.knowledge (importersOf "f" "a.ts")) =
      Neighbour.folder.workspace.impactWith Computed PlainFolder.repo "f" (some "a.ts") []
        ((Outage.knowledge (importersOf "f" "a.ts")).silenced "f" "a.ts") := by
  have husages := Neighbour.folder.usages_eq "f"
  obtain ⟨hcallers, -⟩ := failed_search_loses_both (K := Computed)
    (Outage.aims (Outage.knowledge (callersOf "f" "a.ts")))
  obtain ⟨-, himporters⟩ := failed_search_loses_both (K := Computed)
    (Outage.aims (Outage.knowledge (importersOf "f" "a.ts")))
  obtain ⟨hsilenced, hiff⟩ := hcallers (Outage.unavailable _)
  refine ⟨⟨hsilenced, fun heq => ?_⟩,
    (himporters (Outage.unavailable _)).1 (Or.inr ⟨_, Outage.tells_call⟩)⟩
  rcases (hiff _ husages).mp heq with ⟨message, hmessage⟩ | htells
  · obtain ⟨hits, hhits, -⟩ := Outage.tells_import
    rw [hhits] at hmessage
    cases hmessage
  · have hnil := Outage.tells_import.unique htells
    cases hnil

/-- A caller that is lost since the search for importers cannot be made. -/
theorem caller_lost :
    (∃ r, Neighbour.folder.workspace.impactWith Computed PlainFolder.repo "f" (some "a.ts") []
      (Outage.knowledge (importersOf "f" "a.ts")) = .ok r ∧ r.impacts.map (·.file) = []) ∧
    ∃ r, Neighbour.folder.workspace.impactWith Computed PlainFolder.repo "f" (some "a.ts") []
      ((Outage.knowledge (importersOf "f" "a.ts")).finding (importersOf "f" "a.ts") []) = .ok r ∧
      r.impacts.map (·.file) = ["b.ts"] := by
  constructor
  · rw [impactWith_of_lost_importers (Outage.aims _) (Outage.unavailable _)
      (Or.inr ⟨_, Outage.tells_call⟩),
      ← impactWith_silenced (Outage.aims (Outage.knowledge (importersOf "f" "a.ts")))]
    exact Outage.exists_listed silenced_callers silenced_importers
      (fun _ h => absurd h List.not_mem_nil) (by decide +kernel)
  · obtain ⟨hits, hhits, hdetails, -⟩ := Outage.tells_call
    refine Outage.exists_listed (Eq.trans ?_ hhits) (finding_self []) hdetails (by decide +kernel)
    exact finding_of_ne (callersOf_ne_importersOf "f" "a.ts") []

end Workspace

end CodeAtlas
