import CodeAtlas.Knowledge.Client
import CodeAtlas.Proofs.Number.Overflow
import CodeAtlas.Proofs.Outcome
import CodeAtlas.Proofs.Sorting.Rearranging

/-!
# What is read from an answer

An object is read item by item, and an item without a usable score is left out. Nothing stops the
reading but a whole score that is beyond all real numbers.

* **`readHits_of_overflows`**, **`readHits_of_obj`**: what is read from an object.
* **`KnowledgeClient.source_cases`**: what a search with a client ends with.
-/

namespace CodeAtlas

/-- The item gives this whole number as its relevance, or as its score where that counts as
absent. -/
inductive GivesWhole (item : Members) (n : Int) : Prop
  | relevance (h : Table.get? item "relevance" = some (.int n))
  | score (habsent : ∀ value, Table.get? item "relevance" = some value → value.isVoid = true)
      (h : Table.get? item "score" = some (.int n))

/-- The value is an item with a whole score beyond all real numbers. -/
def Json.TooLarge (value : Json) : Prop :=
  ∃ item n, value = .obj item ∧ GivesWhole item n ∧ beyondReal ≤ n.natAbs

def Json.Overflows (answer : Json) : Prop :=
  ∃ members kind items value, answer = .obj members ∧
    Table.get? members (HitKind.listed kind) = some (.arr items) ∧ value ∈ items ∧ value.TooLarge

/-! ## One item -/

variable {item : Members} {c : KnowledgeClient} {service : WebRequest → KnowledgeReply} {n : Int}
  {s : Search}

theorem ne_zero_of_beyondReal (h : beyondReal ≤ n.natAbs) : n ≠ 0 := by
  rintro rfl
  exact absurd h (by decide +kernel)

theorem firstFilled_cons (item : Members) (name : String) (names : List String)
    (otherwise : Json) : firstFilled item (name :: names) otherwise =
      ((Table.get? item name).filter (!·.isVoid)).getD (firstFilled item names otherwise) := by
  unfold firstFilled
  cases hget : Table.get? item name with
  | none => rw [List.filterMap_cons_none hget]; rfl
  | some value =>
    rw [List.filterMap_cons_some hget, List.find?_cons]
    cases hvoid : value.isVoid <;> simp [Option.filter, hvoid]

/-- The first filled value is a whole number if the first name has it, or has none and the others
do. -/
theorem firstFilled_cons_eq_int_iff {name : String} {names : List String} {otherwise : Json}
    (hn : n ≠ 0) :
    firstFilled item (name :: names) otherwise = .int n ↔ Table.get? item name = some (.int n) ∨
      (∀ value, Table.get? item name = some value → value.isVoid = true) ∧
        firstFilled item names otherwise = .int n := by
  have hfilled : (Json.int n).isVoid = false := by simpa [Json.isVoid] using hn
  rw [firstFilled_cons]
  cases Table.get? item name with
  | none => simp
  | some value =>
    cases hvoid : value.isVoid with
    | false => simp [Option.filter, hvoid]
    | true =>
      have hne : value ≠ .int n := by
        rintro rfl
        rw [hfilled] at hvoid
        cases hvoid
      simp [Option.filter, hvoid, hne]

theorem firstFilled_eq_int_iff (hn : n ≠ 0) :
    firstFilled item ["relevance", "score"] (.int 0) = .int n ↔ GivesWhole item n := by
  have hzero : firstFilled item [] (.int 0) ≠ .int n := fun h => hn (Json.int.inj h).symm
  rw [firstFilled_cons_eq_int_iff hn, firstFilled_cons_eq_int_iff hn]
  constructor
  · rintro (h | ⟨habsent, h | ⟨-, h⟩⟩)
    · exact .relevance h
    · exact .score habsent h
    · exact absurd h hzero
  · rintro (h | ⟨habsent, h⟩)
    · exact Or.inl h
    · exact Or.inr ⟨habsent, Or.inl h⟩

variable {kind : HitKind} {value : Json} {answer : Members} {e : ClientError}

theorem readScore_eq_error_iff :
    readScore value = .error e ↔
      e = .scoreTooLarge ∧ ∃ n, value = .int n ∧ beyondReal ≤ n.natAbs := by
  cases value with
  | int n =>
    have hn := nearestWhole_isInf_iff n
    rw [readScore]
    split_ifs with h
    · simp [← hn, h, eq_comm]
    · simp [← hn, h]
  | _ => simp [readScore]

theorem readHit_eq_error_iff :
    readHit kind value = .error e ↔ e = .scoreTooLarge ∧ value.TooLarge := by
  cases value with
  | obj item =>
    have hread : readHit kind (.obj item) = .error e ↔
        readScore (firstFilled item ["relevance", "score"] (.int 0)) = .error e := by
      rw [readHit]
      cases readScore (firstFilled item ["relevance", "score"] (.int 0)) with
      | ok score => simp [bind, Except.bind, pure, Except.pure]
      | error fault => simp [bind, Except.bind]
    rw [hread, readScore_eq_error_iff]
    refine and_congr_right fun _ => ?_
    constructor
    · rintro ⟨n, hn, hlarge⟩
      exact ⟨item, n, rfl, (firstFilled_eq_int_iff (ne_zero_of_beyondReal hlarge)).mp hn, hlarge⟩
    · rintro ⟨item', n, hitem, hn, hlarge⟩
      cases hitem
      exact ⟨n, (firstFilled_eq_int_iff (ne_zero_of_beyondReal hlarge)).mpr hn, hlarge⟩
  | _ => simp [readHit, Json.TooLarge, pure, Except.pure]

def hitOf? (kind : HitKind) (value : Json) : Option Hit := (readHit kind value).toOption.join

theorem readHit_of_not_tooLarge (h : ¬ value.TooLarge) :
    readHit kind value = .ok (hitOf? kind value) := by
  unfold hitOf?
  cases hread : readHit kind value with
  | ok found => cases found <;> rfl
  | error e => exact absurd (readHit_eq_error_iff.mp hread).2 h

theorem details_of_hitOf? {hit : Hit}
    (h : hitOf? kind value = some hit) : hit.details.isSome = true := by
  have hread : readHit kind value = .ok (some hit) := by
    unfold hitOf? at h
    cases hread : readHit kind value with
    | ok found => rw [hread] at h; cases found <;> cases h; rfl
    | error e => rw [hread] at h; cases h
  cases value with
  | obj item =>
    rw [readHit] at hread
    obtain ⟨score, -, hscore⟩ := bind_eq_ok.mp hread
    obtain ⟨x, -, rfl⟩ := Option.map_eq_some_iff.mp (Except.ok.inj hscore)
    rfl
  | _ => cases hread

/-! ## All items -/

def listedIn (answer : Members) (kind : HitKind) : List Json :=
  ((Table.get? answer kind.listed).bind Json.items?).getD []

/-- The hits that an answer lists. -/
def listedHits (answer : Members) : List Hit :=
  [HitKind.memory, .document, .entity].flatMap fun kind =>
    (listedIn answer kind).filterMap (hitOf? kind)

theorem mem_listedIn :
    value ∈ listedIn answer kind ↔
      ∃ items, Table.get? answer kind.listed = some (.arr items) ∧ value ∈ items := by
  unfold listedIn
  cases Table.get? answer kind.listed with
  | none => simp
  | some found => cases found <;> simp [Json.items?]

theorem overflows_iff :
    (Json.obj answer).Overflows ↔
      ∃ kind ∈ [HitKind.memory, .document, .entity], ∃ value ∈ listedIn answer kind,
        value.TooLarge := by
  constructor
  · rintro ⟨members, kind, items, value, hanswer, hitems, hvalue, hlarge⟩
    cases hanswer
    exact ⟨kind, by cases kind <;> decide, value, mem_listedIn.mpr ⟨items, hitems, hvalue⟩, hlarge⟩
  · rintro ⟨kind, -, value, hvalue, hlarge⟩
    obtain ⟨items, hitems, hvalue⟩ := mem_listedIn.mp hvalue
    exact ⟨answer, kind, items, value, rfl, hitems, hvalue, hlarge⟩

theorem hitsOfKind_of_tooLarge (h : ∃ value ∈ listedIn answer kind, value.TooLarge) :
    hitsOfKind answer kind = .error .scoreTooLarge := by
  have hfault : ∀ value ∈ listedIn answer kind, ∀ e, readHit kind value = .error e →
      e = .scoreTooLarge := fun _ _ _ he => (readHit_eq_error_iff.mp he).1
  obtain ⟨value, hvalue, hlarge⟩ := h
  have hread : (listedIn answer kind).mapM (readHit kind) = .error .scoreTooLarge :=
    (mapM_eq_error_iff hfault).mpr ⟨value, hvalue, readHit_eq_error_iff.mpr ⟨rfl, hlarge⟩⟩
  change (listedIn answer kind).mapM (readHit kind) >>= _ = _
  rw [hread]
  rfl

theorem hitsOfKind_of_not_tooLarge (h : ∀ value ∈ listedIn answer kind, ¬ value.TooLarge) :
    hitsOfKind answer kind = .ok ((listedIn answer kind).filterMap (hitOf? kind)) := by
  have hread : (listedIn answer kind).mapM (readHit kind) =
      .ok ((listedIn answer kind).map (hitOf? kind)) :=
    mapM_eq_ok fun value hvalue => readHit_of_not_tooLarge (h value hvalue)
  change (listedIn answer kind).mapM (readHit kind) >>= _ = _
  rw [hread, ok_bind]
  change Except.ok (List.filterMap id _) = _
  rw [List.filterMap_map, Function.id_comp]

theorem readHits_of_overflows {answer : Json} (h : answer.Overflows) :
    readHits answer = .error .scoreTooLarge := by
  obtain ⟨members, kind, items, value, rfl, hitems, hvalue, hlarge⟩ := h
  obtain ⟨kind, hkind, hlarge⟩ :=
    overflows_iff.mp ⟨_, kind, items, value, rfl, hitems, hvalue, hlarge⟩
  have hfault : ∀ kind ∈ [HitKind.memory, .document, .entity], ∀ e,
      hitsOfKind members kind = .error e → e = .scoreTooLarge := by
    intro kind _ e he
    by_cases hlarge : ∃ value ∈ listedIn members kind, value.TooLarge
    · rw [hitsOfKind_of_tooLarge hlarge] at he
      exact (Except.error.inj he).symm
    · rw [hitsOfKind_of_not_tooLarge fun value hvalue h => hlarge ⟨value, hvalue, h⟩] at he
      cases he
  rw [readHits, (mapM_eq_error_iff hfault).mpr ⟨kind, hkind, hitsOfKind_of_tooLarge hlarge⟩]
  rfl

/-- An object is read unless it lists a score beyond all real numbers, and no hit is lost. -/
theorem readHits_of_obj (h : ¬ (Json.obj answer).Overflows) :
    ∃ hits, readHits (.obj answer) = .ok hits ∧ hits.Perm (listedHits answer) := by
  have hread : [HitKind.memory, .document, .entity].mapM (hitsOfKind answer) =
      .ok ([HitKind.memory, .document, .entity].map fun kind =>
        (listedIn answer kind).filterMap (hitOf? kind)) :=
    mapM_eq_ok fun kind hkind => hitsOfKind_of_not_tooLarge fun value hvalue hlarge =>
      h (overflows_iff.mpr ⟨kind, hkind, value, hvalue, hlarge⟩)
  refine ⟨Sorting.ranked (fun a b => a.score.below b.score) (listedHits answer), ?_,
    Sorting.ranked_perm _ _⟩
  rw [readHits, hread]
  rfl

/-! ## Searches with a client -/

/-- The reply cannot be read to its end, or lists a score beyond all real numbers. -/
def KnowledgeReply.Breaks : KnowledgeReply → Prop
  | .payload answer => answer.Overflows
  | .failed _ => False
  | .brokenOff => True

/-- A search ends with the hits, or cannot be made, or crashes over the reply. -/
theorem KnowledgeClient.source_cases (c : KnowledgeClient) (service : WebRequest → KnowledgeReply)
    (s : Search) :
    (∃ answer hits, service (c.request s) = .payload (.obj answer) ∧
      ¬ (service (c.request s)).Breaks ∧ c.source service s = .ok hits ∧
        hits.Perm (listedHits answer)) ∨
    ((∀ answer, service (c.request s) ≠ .payload (.obj answer)) ∧
      ¬ (service (c.request s)).Breaks ∧
        ∃ message, c.source service s = .error (.unavailable message)) ∨
    ((service (c.request s)).Breaks ∧ c.source service s = .error .crashed) := by
  unfold source
  cases hreply : service (c.request s) with
  | failed message => exact .inr (.inl ⟨nofun, id, _, rfl⟩)
  | brokenOff => exact .inr (.inr ⟨trivial, rfl⟩)
  | payload answer =>
    by_cases hlarge : answer.Overflows
    · refine .inr (.inr ⟨hlarge, ?_⟩)
      rw [search, readHits_of_overflows hlarge]
      rfl
    · cases answer with
      | obj answer =>
        obtain ⟨hits, hread, hperm⟩ := readHits_of_obj hlarge
        refine .inl ⟨answer, hits, rfl, hlarge, ?_, hperm⟩
        rw [search, hread]
        rfl
      | _ => exact .inr (.inl ⟨nofun, hlarge, _, rfl⟩)

theorem KnowledgeClient.details_of_source {hits : List Hit} (h : c.source service s = .ok hits) :
    ∀ hit ∈ hits, hit.details.isSome = true := by
  obtain ⟨answer, found, -, -, hok, hperm⟩ | ⟨-, -, message, herror⟩ | ⟨-, herror⟩ :=
    c.source_cases service s
  · obtain rfl := Except.ok.inj (hok.symm.trans h)
    intro hit hhit
    obtain ⟨kind, -, hhit⟩ := List.mem_flatMap.mp (hperm.mem_iff.mp hhit)
    obtain ⟨value, -, hvalue⟩ := List.mem_filterMap.mp hhit
    exact details_of_hitOf? hvalue
  · rw [herror] at h
    cases h
  · rw [herror] at h
    cases h

theorem KnowledgeClient.source_eq_crashed_iff :
    c.source service s = .error .crashed ↔ (service (c.request s)).Breaks := by
  obtain ⟨answer, hits, -, hwhole, hok, -⟩ | ⟨-, hwhole, message, herror⟩ | ⟨hbreaks, herror⟩ :=
    c.source_cases service s
  · exact iff_of_false (by rw [hok]; exact nofun) hwhole
  · exact iff_of_false (by rw [herror]; exact nofun) hwhole
  · exact iff_of_true herror hbreaks

end CodeAtlas
