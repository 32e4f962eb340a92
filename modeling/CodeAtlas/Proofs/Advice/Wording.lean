import CodeAtlas.Advice.Report
import Mathlib.Data.List.Basic

/-!
# A text service changes wording only

A service is asked about a few of the urgent issues, each once, and a reply with words in it becomes
the wording of that issue. All else is taken from what the wording does not touch.

* **`Graph.advice_rewords_only`**: the reports with any two services.
-/

namespace CodeAtlas

/-! ## Without the wording -/

def Suggestion.unworded (s : Suggestion) : Suggestion := { s with refactoring := "" }

def AdviceReport.unworded (r : AdviceReport) : AdviceReport :=
  { r with suggestions := r.suggestions.map Suggestion.unworded }

def Suggestion.inWords (s : Suggestion) (words : Option String) : Suggestion :=
  { s with refactoring := words.getD s.refactoring }

@[simp]
theorem Suggestion.inWords_none (s : Suggestion) : s.inWords none = s := rfl

theorem bySeverity_map {α β : Type} (severity : α → String) (f : β → α) (xs : List β) :
    bySeverity severity (xs.map f) = (bySeverity (fun x => severity (f x)) xs).map f := by
  unfold bySeverity
  rw [List.map_mergeSort]
  exact fun a _ b _ => rfl

/-- **A report** does not look at the wording. -/
theorem reportIn_unworded (K : Type) [Arith K] (suggestions : List Suggestion) (nodes : Nat) :
    reportIn K (suggestions.map Suggestion.unworded) nodes =
      (reportIn K suggestions nodes).unworded := by
  have hhealth : healthScore K (suggestions.map Suggestion.unworded) nodes =
      healthScore K suggestions nodes := by
    have hpenalty : (penalty (suggestions.map Suggestion.unworded) : K) =
        penalty suggestions := by
      rw [penalty, penalty, List.map_map]
      rfl
    rw [healthScore, healthScore, healthLeft, healthLeft, hpenalty]
  have hsorted : bySeverity (·.severity) (suggestions.map Suggestion.unworded) =
      (bySeverity (·.severity) suggestions).map Suggestion.unworded :=
    bySeverity_map _ _ _
  have hcounts : ∀ ss : List Suggestion,
      issueCounts (ss.map Suggestion.unworded) = issueCounts ss := by
    intro ss
    simp only [issueCounts, List.length_map, List.countP_map]
    rfl
  have hsummary : ∀ (ss : List Suggestion) (health : Int),
      healthSummary (ss.map Suggestion.unworded) health = healthSummary ss health := by
    intro ss health
    simp only [healthSummary, List.isEmpty_map, List.map_map, List.countP_map]
    rfl
  rw [reportIn, hhealth, hsorted, hcounts, hsummary]
  rfl

/-! ## Who is asked about -/

section Places

variable {found : List Suggestion}

theorem length_enhancedPlaces (found : List Suggestion) :
    (enhancedPlaces found).length = min 5 (found.countP Suggestion.isUrgent) := by
  have hurgent : (found.zipIdx.filter (·.1.isUrgent)).length =
      found.countP Suggestion.isUrgent := by
    rw [← List.countP_eq_length_filter]
    conv_rhs => rw [← List.zipIdx_map_fst 0 found, List.countP_map]
    rfl
  rw [enhancedPlaces, List.length_map, List.length_take, bySeverity, List.length_mergeSort, hurgent]
  rfl

theorem enhancedPlaces_subperm (found : List Suggestion) :
    ∃ places, (enhancedPlaces found).Sublist places ∧
      places.Perm ((found.zipIdx.filter (·.1.isUrgent)).map (·.2)) :=
  ⟨_, (List.take_sublist _ _).map _, (List.mergeSort_perm _ _).map _⟩

theorem nodup_enhancedPlaces (found : List Suggestion) : (enhancedPlaces found).Nodup := by
  obtain ⟨places, hsub, hperm⟩ := enhancedPlaces_subperm found
  have hall : (found.zipIdx.map (·.2)).Nodup := by
    rw [List.zipIdx_map_snd]
    exact List.nodup_range'
  exact (hperm.nodup_iff.mpr (hall.sublist (List.filter_sublist.map _))).sublist hsub

theorem isUrgent_of_mem_enhancedPlaces {i : Nat} (h : i ∈ enhancedPlaces found) :
    ∃ s, found[i]? = some s ∧ s.isUrgent = true := by
  obtain ⟨places, hsub, hperm⟩ := enhancedPlaces_subperm found
  obtain ⟨⟨s, j⟩, hmem, rfl⟩ := List.mem_map.mp (hperm.mem_iff.mp (hsub.mem h))
  obtain ⟨hplace, hurgent⟩ := List.mem_filter.mp hmem
  exact ⟨s, List.mem_zipIdx_iff_getElem?.mp hplace, hurgent⟩

end Places

/-! ## What is asked and answered -/

/-- What the service is asked about the suggestions at some places. -/
def promptsAt (suggestions : List Suggestion) (places : List Nat) : List String :=
  places.filterMap fun i => suggestions[i]?.map Suggestion.prompt

/-- The replies of a service to prompts one after another. -/
def repliesTo {σ : Type} (ask : AdviceService σ) : σ → List String → List AdviceReply
  | _, [] => []
  | service, prompt :: rest => (ask prompt service).1 :: repliesTo ask (ask prompt service).2 rest

/-- The words of the reply that was given for a place, if it has any. -/
def wordsFor (places : List Nat) (replies : List AdviceReply) (i : Nat) : Option String :=
  (places.zip replies).findSome? fun x => if x.1 = i then x.2.words? else none

variable {places : List Nat} {i : Nat}

theorem wordsFor_of_notMem (h : i ∉ places)
    (replies : List AdviceReply) : wordsFor places replies i = none := by
  refine List.findSome?_eq_none_iff.mpr fun x hx => ?_
  have hne : x.1 ≠ i := fun he => h (he ▸ (List.of_mem_zip hx).1)
  exact if_neg hne

theorem wordsFor_cons_self (h : i ∉ places) (reply : AdviceReply)
    (replies : List AdviceReply) : wordsFor (i :: places) (reply :: replies) i = reply.words? := by
  have hrest := wordsFor_of_notMem h replies
  rw [wordsFor] at hrest ⊢
  rw [List.zip_cons_cons, List.findSome?_cons, if_pos rfl, hrest]
  cases reply.words? <;> rfl

theorem wordsFor_cons_of_ne {place i : Nat} (h : i ≠ place) (places : List Nat)
    (reply : AdviceReply) (replies : List AdviceReply) :
    wordsFor (place :: places) (reply :: replies) i = wordsFor places replies i := by
  rw [wordsFor, List.zip_cons_cons, List.findSome?_cons, if_neg h.symm]
  rfl

theorem AdviceReply.words?_eq_some_iff {reply : AdviceReply} {words : String} :
    reply.words? = some words ↔ reply = .text words ∧ words ≠ "" := by
  constructor
  · intro h
    unfold words? at h
    split at h
    · rename_i s
      split at h
      · cases h
      · rename_i hs
        obtain rfl := Option.some.inj h
        exact ⟨rfl, fun hempty => hs (by rw [hempty]; rfl)⟩
    · cases h
  · rintro ⟨rfl, hne⟩
    simp [words?, hne]

theorem wordsFor_eq_some_iff (hd : places.Nodup) {replies : List AdviceReply}
    {words : String} : wordsFor places replies i = some words ↔
      ∃ k : Nat, places[k]? = some i ∧ replies[k]? = some (.text words) ∧ words ≠ "" := by
  induction places generalizing replies with
  | nil => simp [wordsFor]
  | cons place places ih =>
    obtain ⟨hnot, hd⟩ := List.nodup_cons.mp hd
    cases replies with
    | nil => simp [wordsFor]
    | cons reply replies =>
      by_cases hi : i = place
      · subst hi
        rw [wordsFor_cons_self hnot, AdviceReply.words?_eq_some_iff]
        constructor
        · rintro ⟨rfl, hne⟩
          exact ⟨0, rfl, rfl, hne⟩
        · rintro ⟨k, hk, hreply, hne⟩
          cases k with
          | zero => exact ⟨Option.some.inj hreply, hne⟩
          | succ k =>
            rw [List.getElem?_cons_succ] at hk
            exact absurd (List.mem_of_getElem? hk) hnot
      · rw [wordsFor_cons_of_ne hi, ih hd]
        constructor
        · rintro ⟨k, hk⟩
          exact ⟨k + 1, hk⟩
        · rintro ⟨k, hk, hreply⟩
          cases k with
          | zero => exact absurd (Option.some.inj hk).symm hi
          | succ k => exact ⟨k, hk, hreply⟩

section Asking

variable {σ : Type} (ask : AdviceService σ)

/-- **One question**: the suggestion at the place gets the words of the reply. -/
theorem enhanceAt_eq (e : Enhancement σ) {place : Nat} {s : Suggestion}
    (hs : e.suggestions[place]? = some s) :
    (enhanceAt ask e place).suggestions =
        e.suggestions.set place (s.inWords (ask s.prompt e.service).1.words?) ∧
      (enhanceAt ask e place).prompts = e.prompts ++ [s.prompt] ∧
      (enhanceAt ask e place).service = (ask s.prompt e.service).2 := by
  have hsame : e.suggestions.set place s = e.suggestions := by
    obtain ⟨hlt, rfl⟩ := List.getElem?_eq_some_iff.mp hs
    exact List.set_getElem_self hlt
  unfold enhanceAt
  rw [hs]
  dsimp only
  cases hwords : (ask s.prompt e.service).1.words? with
  | none => exact ⟨by rw [Suggestion.inWords_none, hsame], rfl, rfl⟩
  | some words => exact ⟨rfl, rfl, rfl⟩

/-- **All questions**: each place gets the words of its own reply. -/
theorem enhanceAt_foldl (hd : places.Nodup) (e : Enhancement σ)
    (hin : ∀ i ∈ places, i < e.suggestions.length) :
    let prompts := promptsAt e.suggestions places
    (places.foldl (enhanceAt ask) e).prompts = e.prompts ++ prompts ∧
      ∀ i : Nat, (places.foldl (enhanceAt ask) e).suggestions[i]? =
        e.suggestions[i]?.map fun s : Suggestion =>
          s.inWords (wordsFor places (repliesTo ask e.service prompts) i) := by
  induction places generalizing e with
  | nil => simp [promptsAt, wordsFor]
  | cons place places ih =>
    obtain ⟨hnot, hd⟩ := List.nodup_cons.mp hd
    have hlt := hin place List.mem_cons_self
    have hs : e.suggestions[place]? = some e.suggestions[place] := List.getElem?_eq_getElem hlt
    generalize e.suggestions[place] = s at hs
    obtain ⟨hsuggestions, hprompts, hservice⟩ := enhanceAt_eq ask e hs
    -- the other suggestions are still the same, so the same is asked about them
    have hothers : ∀ i, i ≠ place → (enhanceAt ask e place).suggestions[i]? = e.suggestions[i]? :=
      fun i hi => by rw [hsuggestions, List.getElem?_set_ne hi.symm]
    have hrest : promptsAt (enhanceAt ask e place).suggestions places =
        promptsAt e.suggestions places := by
      refine List.filterMap_congr fun i hi => ?_
      rw [hothers i fun he => hnot (he ▸ hi)]
    have hall : promptsAt e.suggestions (place :: places) =
        s.prompt :: promptsAt e.suggestions places := by
      rw [promptsAt, List.filterMap_cons_some (by rw [hs]; rfl)]
      rfl
    obtain ⟨hasked, hreworded⟩ := ih hd (enhanceAt ask e place) fun i hi => by
      rw [hsuggestions, List.length_set]
      exact hin i (List.mem_cons_of_mem place hi)
    rw [hrest] at hasked hreworded
    dsimp only
    rw [List.foldl_cons, hall]
    refine ⟨by rw [hasked, hprompts, List.append_assoc]; rfl, fun i => ?_⟩
    rw [hreworded i, hservice]
    by_cases hi : i = place
    · subst hi
      rw [hsuggestions, List.getElem?_set_self hlt, hs, wordsFor_of_notMem hnot, repliesTo,
        wordsFor_cons_self hnot]
      rfl
    · rw [hothers i hi, repliesTo, wordsFor_cons_of_ne hi]

/-- **The urgent suggestions reworded**, with what was asked about them. -/
theorem enhance_eq (service : σ) (found : List Suggestion) :
    let places := enhancedPlaces found
    let prompts := promptsAt found places
    (enhance ask service found).prompts = prompts ∧
      (enhance ask service found).suggestions = found.zipIdx.map fun x =>
        x.1.inWords (wordsFor places (repliesTo ask service prompts) x.2) := by
  intro places prompts
  have hin : ∀ i ∈ places, i < found.length := fun i hi => by
    obtain ⟨s, hs, -⟩ := isUrgent_of_mem_enhancedPlaces hi
    exact (List.getElem?_eq_some_iff.mp hs).1
  obtain ⟨hprompts, hreworded⟩ :=
    enhanceAt_foldl ask (nodup_enhancedPlaces found) ⟨found, [], 0, service⟩ hin
  refine ⟨hprompts, List.ext_getElem? fun i => (hreworded i).trans ?_⟩
  rw [List.getElem?_map, List.getElem?_zipIdx, Option.map_map, Nat.zero_add]
  rfl

end Asking

/-! ## Reports with a service -/

theorem length_promptsAt {found : List Suggestion}
    (h : ∀ i ∈ places, ∃ s, found[i]? = some s ∧ s.isUrgent = true) :
    (promptsAt found places).length = places.length := by
  refine List.filterMap_length_eq_length.mpr fun i hi => ?_
  obtain ⟨s, hs, -⟩ := h i hi
  rw [hs]
  rfl

theorem Graph.adviceIn_unworded (K : Type) [Arith K] {σ : Type} (g : Graph)
    (options : AdviceOptions) (ask : Option (AdviceService σ)) (service : σ) :
    (g.adviceIn K options ask service).map (·.1.unworded) =
      (g.smells options).map fun found => (reportIn K found g.nodes.length).unworded := by
  unfold adviceIn
  cases g.smells options with
  | error fault => rfl
  | ok found =>
    cases ask with
    | none => rfl
    | some ask =>
      cases options.enhanced with
      | false => rfl
      | true =>
        have hsame : (enhance ask service found).suggestions.map Suggestion.unworded =
            found.map Suggestion.unworded := by
          rw [(enhance_eq ask service found).2, List.map_map]
          conv_rhs => rw [← List.zipIdx_map_fst 0 found, List.map_map]
          rfl
        change Except.ok (reportIn K (enhance ask service found).suggestions _).unworded = _
        rw [← reportIn_unworded, hsame, reportIn_unworded]
        rfl

/-- **A text service changes wording only.** It is asked about at most five urgent issues, each
once, and an issue is reworded just if the reply to its own prompt has words in it. -/
theorem Graph.advice_rewords_only (g : Graph) (options : AdviceOptions) {σ τ : Type}
    (ask : Option (AdviceService σ)) (service : σ) (ask' : Option (AdviceService τ))
    (service' : τ) :
    (g.advice options ask service).map (·.1.unworded) =
        (g.advice options ask' service').map (·.1.unworded) ∧
      ∀ asked found, ask = some asked → options.enhanced = true → g.smells options = .ok found →
        ∃ report prompts after places, ∃ ranked : List (Suggestion × Nat),
        ∃ wording : Nat → Option String,
          g.advice options ask service = .ok (report, prompts, after) ∧
          prompts.length = min 5 (found.countP Suggestion.isUrgent) ∧
          prompts = promptsAt found places ∧ places.Nodup ∧
          (∀ i ∈ places, ∃ s, found[i]? = some s ∧ s.isUrgent = true) ∧
          ranked.Perm found.zipIdx ∧
          (reportOn found g.nodes.length).suggestions = ranked.map (·.1) ∧
          report.suggestions = ranked.map (fun x => x.1.inWords (wording x.2)) ∧
          ∀ i words, wording i = some words ↔
            ∃ k : Nat, places[k]? = some i ∧
              (repliesTo asked service prompts)[k]? = some (.text words) ∧ words ≠ "" := by
  refine ⟨(adviceIn_unworded ..).trans (adviceIn_unworded ..).symm, ?_⟩
  rintro asked found rfl henhanced hfound
  obtain ⟨hprompts, hreworded⟩ := enhance_eq asked service found
  have hurgent : ∀ i ∈ enhancedPlaces found, ∃ s, found[i]? = some s ∧ s.isUrgent = true :=
    fun i hi => isUrgent_of_mem_enhancedPlaces hi
  have hadvice : g.advice options (some asked) service =
      .ok (reportOn (enhance asked service found).suggestions g.nodes.length,
        (enhance asked service found).prompts, (enhance asked service found).service) := by
    rw [advice, adviceIn, hfound, henhanced]
    rfl
  refine ⟨_, _, _, enhancedPlaces found, bySeverity (·.1.severity) found.zipIdx,
    wordsFor (enhancedPlaces found)
      (repliesTo asked service (promptsAt found (enhancedPlaces found))),
    hadvice, ?_, hprompts, nodup_enhancedPlaces found, hurgent, List.mergeSort_perm _ _, ?_, ?_, ?_⟩
  · rw [hprompts, length_promptsAt hurgent, length_enhancedPlaces]
  · change bySeverity Suggestion.severity found = _
    conv_lhs => rw [← List.zipIdx_map_fst 0 found, bySeverity_map]
  · change bySeverity Suggestion.severity _ = _
    rw [hreworded, bySeverity_map]
    rfl
  · rw [hprompts]
    exact fun i words => wordsFor_eq_some_iff (nodup_enhancedPlaces found)

namespace Hub

/-- A file with twenty-six dependencies. -/
def graph : Graph where
  nodes := [{ id := "hub", kind := "file", name := "hub", path := "hub" }]
  edges := (List.range 26).map fun i => Edge.between "hub" (natText i) "imports"
  metadata := { generatedAt := "" }

/-- Tight couplings are looked for, and a service is asked about them. -/
def options : AdviceOptions where
  issueKinds := ["tight-coupling"]
  enhanced := true

def ask : AdviceService Unit := fun _ _ => (.text "Split it.", ())

theorem exists_smell : ∃ s : Suggestion, graph.smells options = .ok [s] ∧ s.isUrgent = true := by
  have hsmells : graph.smells options = .ok ((Smell.tightCouplings graph ++ []).filter
      fun s => Amount.atLeast (.real s.confidence) options.minConfidence) := rfl
  have hurgent : (((Smell.tightCouplings graph ++ []).filter fun s : Suggestion =>
      Amount.atLeast (.real s.confidence) options.minConfidence).map Suggestion.isUrgent) =
        [true] := by decide +kernel
  obtain ⟨s, hs, htrue⟩ := List.map_eq_singleton_iff.mp hurgent
  exact ⟨s, by rw [hsmells, hs], htrue⟩

end Hub

theorem Graph.advice_rewords_only_hub :
    ∃ report prompts after, Hub.graph.advice Hub.options (some Hub.ask) () =
        .ok (report, prompts, after) ∧ prompts.length = 1 ∧
      report.suggestions.map (·.refactoring) = ["Split it."] := by
  obtain ⟨s, hsmells, hurgent⟩ := Hub.exists_smell
  obtain ⟨report, prompts, after, places, ranked, wording, hadvice, hlength, hprompts, -, hplaces,
    hranked, -, hreport, hwording⟩ := (Hub.graph.advice_rewords_only Hub.options (some Hub.ask) ()
      (some Hub.ask) ()).2 Hub.ask [s] rfl rfl hsmells
  have hone : prompts.length = 1 := by rw [hlength, List.countP_cons_of_pos hurgent]; rfl
  obtain rfl : ranked = [(s, 0)] := List.perm_singleton.mp hranked
  -- the only place is that of the only issue, and the only reply is the one to it
  obtain ⟨prompt, rfl⟩ := List.length_eq_one_iff.mp hone
  have hfirst : places[0]? = some 0 := by
    cases places with
    | nil => cases hprompts
    | cons i rest =>
      obtain ⟨_, hi, -⟩ := hplaces i List.mem_cons_self
      have hlt : i < 1 := (List.getElem?_eq_some_iff.mp hi).1
      rw [List.getElem?_cons_zero, Nat.lt_one_iff.mp hlt]
  have hwords : wording 0 = some "Split it." :=
    (hwording 0 "Split it.").mpr ⟨0, hfirst, rfl, by decide⟩
  refine ⟨report, [prompt], after, hadvice, hone, ?_⟩
  rw [hreport]
  change [(s.inWords (wording 0)).refactoring] = _
  rw [hwords]
  rfl

end CodeAtlas
