import CodeAtlas.Proofs.Assembly.Growth
import CodeAtlas.Proofs.Impact.Inquiry
import CodeAtlas.Proofs.Knowledge.Answer

/-!
# How an inquiry ends

An inquiry goes on whether or not a knowledge source can be asked, and crashes with it. Apart from
that it fails only over the files.

* **`KnowledgeClient.crashes_iff_reply_breaks`**: a client and the inquiries that ask it.
-/

namespace CodeAtlas

variable {α β : Type}

/-- How an inquiry ends: with a result or a failure of its own, no search having crashed, or with
one that crashed. -/
inductive Ends (knowledge : KnowledgeSource) (P : α → Prop) (Q : ImpactError → Prop) :
    List Search → Except ImpactError α → Prop
  | found {asked : List Search} {a : α} (hcalm : ∀ s ∈ asked, knowledge s ≠ .error .crashed)
      (h : P a) : Ends knowledge P Q asked (.ok a)
  | failed {asked : List Search} {e : ImpactError}
      (hcalm : ∀ s ∈ asked, knowledge s ≠ .error .crashed) (hne : e ≠ .crashed) (h : Q e) :
      Ends knowledge P Q asked (.error e)
  | crashed {asked : List Search} {s : Search} (hs : s ∈ asked)
      (h : knowledge s = .error .crashed) : Ends knowledge P Q asked (.error .crashed)

/-- Whatever was searched before, the inquiry ends in such a way. -/
def Inquires (knowledge : KnowledgeSource) (P : α → Prop) (Q : ImpactError → Prop)
    (x : Inquiry α) : Prop :=
  ∀ before, ∃ asked, (x.run.run before).2 = before ++ asked ∧
    Ends knowledge P Q asked (x.run.run before).1

section Steps

variable {knowledge : KnowledgeSource} {P : α → Prop} {Q : ImpactError → Prop} {R : β → Prop}

theorem Ends.after {asked more : List Search} {out : Except ImpactError α}
    (h : Ends knowledge P Q more out) (hcalm : ∀ s ∈ asked, knowledge s ≠ .error .crashed) :
    Ends knowledge P Q (asked ++ more) out := by
  cases h with
  | found hmore ha => exact .found (List.forall_mem_append.mpr ⟨hcalm, hmore⟩) ha
  | failed hmore hne he => exact .failed (List.forall_mem_append.mpr ⟨hcalm, hmore⟩) hne he
  | crashed hs hcrash => exact .crashed (List.mem_append_right asked hs) hcrash

variable {asked : List Search} {e : ImpactError}

theorem Ends.eq_crashed_iff {out : Except ImpactError α} (h : Ends knowledge P Q asked out) :
    out = .error .crashed ↔ ∃ s ∈ asked, knowledge s = .error .crashed := by
  cases h with
  | found hcalm ha => exact iff_of_false nofun fun ⟨s, hs, h⟩ => hcalm s hs h
  | failed hcalm hne he =>
    exact iff_of_false (fun h => hne (Except.error.inj h)) fun ⟨s, hs, h⟩ => hcalm s hs h
  | crashed hs hcrash => exact iff_of_true rfl ⟨_, hs, hcrash⟩

theorem Ends.of_eq_error {out : Except ImpactError α} (h : Ends knowledge P Q asked out)
    (he : out = .error e) : e = .crashed ∨ Q e := by
  cases h with
  | found hcalm ha => cases he
  | failed hcalm hne h => exact Or.inr (Except.error.inj he ▸ h)
  | crashed hs hcrash => exact Or.inl (Except.error.inj he).symm

theorem Inquires.pure {a : α} (h : P a) : Inquires knowledge P Q (pure a) :=
  fun before => ⟨[], (List.append_nil before).symm, .found (fun _ h => absurd h List.not_mem_nil) h⟩

theorem Inquires.throw (hne : e ≠ .crashed) (h : Q e) :
    Inquires knowledge P Q (throw e) :=
  fun before =>
    ⟨[], (List.append_nil before).symm, .failed (fun _ h => absurd h List.not_mem_nil) hne h⟩

theorem Inquires.bind {x : Inquiry α} {f : α → Inquiry β} (hx : Inquires knowledge P Q x)
    (hf : ∀ a, P a → Inquires knowledge R Q (f a)) : Inquires knowledge R Q (x >>= f) := by
  intro before
  obtain ⟨asked, hlog, hend⟩ := hx before
  rw [run_bind]
  cases hrun : x.run.run before with
  | mk out between =>
    rw [hrun] at hlog hend
    cases hend with
    | found hcalm ha =>
      obtain ⟨more, hlog', hend'⟩ := hf _ ha between
      refine ⟨asked ++ more, ?_, hend'.after hcalm⟩
      rw [hlog', ← List.append_assoc]
      exact congrArg (· ++ more) hlog
    | failed hcalm hne he => exact ⟨asked, hlog, .failed hcalm hne he⟩
    | crashed hs hcrash => exact ⟨asked, hlog, .crashed hs hcrash⟩

theorem Inquires.mapM {f : β → Inquiry α} {xs : List β}
    (h : ∀ x ∈ xs, Inquires knowledge (fun _ => True) Q (f x)) :
    Inquires knowledge (fun _ => True) Q (xs.mapM f) := by
  induction xs with
  | nil => exact .pure trivial
  | cons x xs ih =>
    obtain ⟨hx, hxs⟩ := List.forall_mem_cons.mp h
    rw [List.mapM_cons]
    exact hx.bind fun _ _ => (ih hxs).bind fun _ _ => .pure trivial

theorem inquires_located {result : Except BuildError α}
    (h : Meets P (fun _ => Q .lostPath) result) : Inquires knowledge P Q (located result) := by
  cases h with
  | ok h => exact .pure h
  | error h => exact .throw (by decide) h

theorem inquires_askFor (query : String) (limit : Int) :
    Inquires knowledge (fun answer => ∀ hits, answer = some hits → ∃ s, knowledge s = .ok hits) Q
      (askFor knowledge query limit) := by
  intro before
  refine ⟨[⟨query, limit, some "code"⟩], ?_⟩
  cases hknowledge : knowledge ⟨query, limit, some "code"⟩ with
  | ok hits =>
    have hrun : Finds (askFor knowledge query limit) before (some hits) _ :=
      finds_askFor.mpr ⟨rfl, hknowledge⟩
    rw [Finds] at hrun
    rw [hrun]
    refine ⟨rfl, .found (by simp [hknowledge]) fun found hfound => ⟨_, hknowledge.trans ?_⟩⟩
    rw [Option.some.inj hfound]
  | error fault =>
    cases fault with
    | unavailable message =>
      have hrun : Finds (askFor knowledge query limit) before none _ :=
        finds_askFor.mpr ⟨rfl, message, hknowledge⟩
      rw [Finds] at hrun
      rw [hrun]
      refine ⟨rfl, .found ?_ nofun⟩
      simp [hknowledge]
    | crashed =>
      rw [run_askFor_of_crashed hknowledge]
      exact ⟨rfl, .crashed List.mem_cons_self hknowledge⟩

theorem inquires_textDetail {hit : Hit} (h : hit.details.isSome = true) (name : String) :
    Inquires knowledge (fun _ => True) Q (textDetail hit name) := by
  obtain ⟨details, hdetails⟩ := Option.isSome_iff_exists.mp h
  rw [textDetail, hdetails]
  exact .pure trivial

end Steps

/-! ## The inquiry -/

/-- Why the files make an inquiry into a change of a symbol fail. -/
inductive Workspace.Hinders (w : Workspace) (repo : Path) (symbol : String)
    (file : Option String) : ImpactError → Prop
  | loop (path : Path) (h : w.resolve path = .error .linkLoop) :
      w.Hinders repo symbol file .lostPath
  | unknown (hfile : file.filter (!·.isEmpty) = none) (h : definingFile? w repo symbol = none) :
      w.Hinders repo symbol file (.notFound symbol)

namespace Workspace

variable {w : Workspace} {repo : Path} {symbol : String} {file : Option String}
  {knowledge : KnowledgeSource} {Q : ImpactError → Prop}

theorem relative_hinders (path : Path) :
    Meets (fun _ => True) (fun _ => w.Hinders repo symbol file .lostPath)
      (w.relative repo path) := by
  cases h : w.relative repo path with
  | ok text => exact .ok trivial
  | error e => exact .error (.loop path (relative_eq_error h).2)

theorem usages_hinders (name : String) :
    Meets (fun _ => True) (fun _ => w.Hinders repo symbol file .lostPath)
      (w.usages repo name none) := by
  have hfile : ∀ path, Meets (fun _ => True) (fun _ => w.Hinders repo symbol file .lostPath)
      (w.usagesInFile repo name path) := by
    intro path
    refine (relative_hinders path).bind fun text _ => ?_
    cases w.file path with
    | ok f => exact .ok trivial
    | error fault => exact .ok trivial
  exact (Meets.mapM fun path _ => hfile path).bind fun _ _ => .ok trivial

variable (hdetails : ∀ s hits, knowledge s = .ok hits → ∀ hit ∈ hits, hit.details.isSome = true)

theorem inquires_normalTarget (name : String) :
    Inquires knowledge (fun _ => True) (w.Hinders repo symbol file) (normalTarget w repo name) := by
  unfold normalTarget
  dsimp only
  split_ifs
  · exact inquires_located (relative_hinders _)
  · exact .pure trivial

theorem inquires_usageTable (symbols : List String) :
    Inquires knowledge (fun _ => True) (w.Hinders repo symbol file) (usageTable w repo symbols) :=
  Inquires.mapM fun name _ =>
    (inquires_located (usages_hinders name)).bind fun _ _ => .pure trivial

include hdetails

theorem inquires_changedFile :
    Inquires knowledge (fun told => told = none → w.Hinders repo symbol file (.notFound symbol))
      (w.Hinders repo symbol file) (changedFile w repo knowledge symbol file) := by
  unfold changedFile
  cases hfile : file.filter (!·.isEmpty) with
  | some name => exact .pure nofun
  | none =>
    unfold definitionOf
    refine (inquires_askFor _ 5).bind fun answer hanswer => ?_
    dsimp only
    -- the first hit, if there is one, may tell the file; the files are asked if it does not
    cases hhits : answer.getD []
    case' nil => refine (Inquires.pure (P := fun _ => True) trivial).bind fun told _ => ?_
    case' cons hit others =>
      have hsome : hit.details.isSome = true := by
        cases answer with
        | none => cases hhits
        | some hits =>
          obtain ⟨s, hs⟩ := hanswer hits rfl
          obtain rfl : hits = hit :: others := hhits
          exact hdetails s _ hs hit List.mem_cons_self
      refine (inquires_textDetail hsome "file_path").bind fun told _ => ?_
    all_goals
      cases told with
      | some name => exact .pure nofun
      | none =>
        cases hdefining : definingFile? w repo symbol with
        | none => exact .pure fun _ => .unknown hfile hdefining
        | some path => exact (inquires_located (relative_hinders path)).bind fun _ _ => .pure nofun

theorem inquires_reportedUses {hits : List Hit} (hhits : ∃ s, knowledge s = .ok hits)
    (relation user path : String) :
    Inquires knowledge (fun _ => True) Q (reportedUses relation user path hits) := by
  obtain ⟨s, hs⟩ := hhits
  refine (Inquires.mapM fun hit hhit => ?_).bind fun _ _ => .pure trivial
  have hsome := hdetails s hits hs hit hhit
  refine (inquires_textDetail hsome user).bind fun u _ => ?_
  refine (inquires_textDetail hsome path).bind fun f _ => ?_
  split
  · exact .pure trivial
  · exact .pure trivial

theorem inquires_reportedFor (name target : String) :
    Inquires knowledge (fun _ => True) Q (reportedFor knowledge name target) := by
  refine (inquires_askFor _ 20).bind fun callers hcallers => ?_
  cases callers with
  | none => exact .pure trivial
  | some callers =>
    refine (inquires_reportedUses hdetails (hcallers callers rfl) _ _ _).bind fun calls _ => ?_
    refine (inquires_askFor _ 20).bind fun importers himporters => ?_
    cases importers with
    | none => exact .pure trivial
    | some importers =>
      exact (inquires_reportedUses hdetails (himporters importers rfl) _ _ _).bind fun _ _ =>
        .pure trivial

/-- An inquiry ends with a report, or the files hinder it, or the source crashes. -/
theorem inquires_impactOf (K : Type) [Arith K] :
    Inquires knowledge (fun _ => True) (w.Hinders repo symbol file)
      (w.impactOf K repo knowledge symbol file) := by
  refine (inquires_changedFile hdetails).bind fun told htold => ?_
  cases told with
  | none => exact .throw nofun (htold rfl)
  | some name =>
    refine (inquires_normalTarget name).bind fun target _ => ?_
    refine (inquires_reportedFor hdetails symbol target).bind fun reported _ => ?_
    exact (inquires_usageTable _).bind fun table _ => .pure trivial

end Workspace

namespace KnowledgeClient

/-- **A client and the inquiries that ask it.** A search crashes just if the reply cannot be read to
its end or lists a score beyond all real numbers, and an inquiry into a change just if one of its
searches does. -/
theorem crashes_iff_reply_breaks (c : KnowledgeClient) (service : WebRequest → KnowledgeReply) :
    (∀ s,
      (∃ answer hits, service (c.request s) = .payload (.obj answer) ∧
        ¬ (service (c.request s)).Breaks ∧ c.source service s = .ok hits ∧
          hits.Perm (listedHits answer)) ∨
      ((∀ answer, service (c.request s) ≠ .payload (.obj answer)) ∧
        ¬ (service (c.request s)).Breaks ∧
          ∃ message, c.source service s = .error (.unavailable message)) ∨
      ((service (c.request s)).Breaks ∧ c.source service s = .error .crashed)) ∧
    ∀ (K : Type) [Arith K] (w : Workspace) (repo : Path) (symbol : String) (file : Option String)
      (before : List Search), ∃ asked out,
        (w.impactOf K repo (c.source service) symbol file).run.run before =
          (out, before ++ asked) ∧
        (out = .error .crashed ↔ ∃ s ∈ asked, (service (c.request s)).Breaks) ∧
        ∀ e, out = .error e → e = .crashed ∨ w.Hinders repo symbol file e := by
  refine ⟨c.source_cases service, fun K _ w repo symbol file before => ?_⟩
  have hinquires : Inquires (c.source service) (fun _ => True) (w.Hinders repo symbol file)
      (w.impactOf K repo (c.source service) symbol file) :=
    Workspace.inquires_impactOf (fun _ _ hs => details_of_source hs) K
  obtain ⟨asked, hlog, hend⟩ := hinquires before
  refine ⟨asked, _, Prod.ext rfl hlog, ?_, fun e he => hend.of_eq_error he⟩
  simp only [hend.eq_crashed_iff, source_eq_crashed_iff]

/-- An answer that lists a document with a score of 401 digits. -/
def hugeScore : Json := .obj [("documents", .arr [.obj [("score", .int (10 ^ 400))]])]

theorem overflows_hugeScore : hugeScore.Overflows := by
  refine ⟨_, .document, _, .obj [("score", .int (10 ^ 400))], rfl, rfl, List.mem_cons_self, ?_⟩
  exact ⟨_, 10 ^ 400, rfl, .score nofun rfl, by decide +kernel⟩

/-- Such an answer crashes every search, and an inquiry with its first search. -/
theorem crashes_over_hugeScore :
    (∀ (c : KnowledgeClient) (s : Search),
      c.source (fun _ => .payload hugeScore) s = .error .crashed) ∧
    ∀ (c : KnowledgeClient) (w : Workspace) (repo : Path),
      (w.impactOf Computed repo (c.source fun _ => .payload hugeScore) "f" (some "a.ts")).run.run
        [] = (.error .crashed, [callersOf "f" "a.ts"]) := by
  have hcrash : ∀ (c : KnowledgeClient) (s : Search),
      c.source (fun _ => .payload hugeScore) s = .error .crashed :=
    fun c s => source_eq_crashed_iff.mpr overflows_hugeScore
  refine ⟨hcrash, fun c w repo => ?_⟩
  have htarget : (normalTarget w repo "a.ts").run.run [] = (.ok "a.ts", []) :=
    Workspace.finds_normalTarget rfl
  have hchanged : (changedFile w repo (c.source fun _ => .payload hugeScore) "f"
      (some "a.ts")).run.run [] = (.ok (some "a.ts"), []) := rfl
  have hreported : (reportedFor (c.source fun _ => .payload hugeScore) "f" "a.ts").run.run [] =
      (.error .crashed, [callersOf "f" "a.ts"]) := by
    rw [reportedFor, run_bind, run_askFor_of_crashed (hcrash c _)]
    rfl
  rw [Workspace.impactOf, run_bind, hchanged]
  dsimp only
  rw [impactIn, run_bind, htarget]
  dsimp only
  rw [run_bind, hreported]

end KnowledgeClient

end CodeAtlas
