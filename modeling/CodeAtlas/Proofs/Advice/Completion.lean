import CodeAtlas.Advice.Provider
import CodeAtlas.Proofs.Text.Encoding

/-!
# What a prompt can bring

Any bytes may come back from a provider. A prompt brings a text or nothing unless the answer upsets
the reader or has something else in the place of the text.

* **`TextProvider.generate_brings_text_iff`**: when a prompt brings a text or nothing.
-/

namespace CodeAtlas

/-! ## Places in a value -/

/-- A step into a value: to a member of an object, or to the first item of a list. -/
inductive Json.Step where
  | member (name : String)
  | first

def Json.step? (value : Json) : Json.Step → Option Json
  | .member name => value.get? name
  | .first => value.first?

def Json.at? (value : Json) (place : List Json.Step) : Option Json := place.foldlM Json.step? value

def ProviderKind.textPlace : ProviderKind → List Json.Step
  | .ollama => [.member "response"]
  | .openai => [.member "choices", .first, .member "message", .member "content"]
  | .anthropic => [.member "content", .first, .member "text"]

/-! ## Replies -/

/-- The reply makes a provider of this kind fail, with this error. -/
inductive ProviderReply.Upsets (kind : ProviderKind) : ProviderReply → ProviderError → Prop
  | refused : Upsets kind .refused .refused
  | notText {bytes : List UInt8} (h : ∀ s, Utf8.bytes s ≠ bytes) :
      Upsets kind (.body bytes) .notText
  | longNumber {s : String} (h : Json.parse s = .error .longNumber) :
      Upsets kind (.body (Utf8.bytes s)) .longNumber
  | tooDeep {s : String} (h : Json.parse s = .error .tooDeep) :
      Upsets kind (.body (Utf8.bytes s)) .tooDeep
  | notObject {s : String} {answer : Json} (hkind : kind = .ollama)
      (h : Json.parse s = .ok answer) (hform : answer.members? = none)
      (hfilled : answer.isVoid = false) : Upsets kind (.body (Utf8.bytes s)) .notObject

def ProviderReply.Holds (kind : ProviderKind) (reply : ProviderReply) (value : Json) : Prop :=
  ∃ s answer, reply = .body (Utf8.bytes s) ∧ Json.parse s = .ok answer ∧
    answer.at? kind.textPlace = some value

def Exchange.upcoming (x : Exchange) : ProviderReply := x.replies.headD .unreachable

namespace TextProvider

/-- The text is looked up in its place; only a local model minds in what. -/
theorem textOf_eq (kind : ProviderKind) (answer : Json) :
    textOf kind answer =
      if kind = .ollama ∧ answer.members? = none ∧ answer.isVoid = false then .error .notObject
      else .ok ((answer.at? kind.textPlace).getD .null) := by
  cases kind with
  | ollama =>
    cases answer with
    | obj members =>
      simp [textOf, Json.members?, ProviderKind.textPlace, Json.at?, Json.step?, Json.get?]
    | _ =>
      simp only [textOf, Json.members?, ProviderKind.textPlace, Json.at?, List.foldlM_cons,
        Json.step?, Json.get?, Option.bind_eq_bind, Option.bind_none, Option.getD_none, true_and]
      split_ifs with hvoid hfilled <;> simp_all
  | openai => simp [textOf, ProviderKind.textPlace, Json.at?, Json.step?, Option.bind_assoc]
  | anthropic => simp [textOf, ProviderKind.textPlace, Json.at?, Json.step?, Option.bind_assoc]

theorem read_body (kind : ProviderKind) (s : String) :
    read kind (.body (Utf8.bytes s)) =
      match Json.parse s with
      | .ok answer => textOf kind answer
      | .error .malformed => .ok .null
      | .error .longNumber => .error .longNumber
      | .error .tooDeep => .error .tooDeep := by
  simp only [read, decode, Utf8.strict?_eq_some_iff.mpr rfl]
  rcases Json.parse s with (_ | _ | _) | _ <;> rfl

theorem read_stray {bytes : List UInt8} (h : ∀ s, Utf8.bytes s ≠ bytes) (kind : ProviderKind) :
    read kind (.body bytes) = .error .notText := by
  have hnone : Utf8.strict? bytes = none :=
    Option.eq_none_iff_forall_ne_some.mpr fun s hs => h s (Utf8.strict?_eq_some_iff.mp hs)
  rw [read, decode, hnone]
  rfl

variable {kind : ProviderKind} {reply : ProviderReply} {value : Json} {e : ProviderError}

theorem read_of_upsets (h : reply.Upsets kind e) : read kind reply = .error e := by
  cases h with
  | refused => rfl
  | notText h => exact read_stray h kind
  | longNumber h => rw [read_body, h]
  | tooDeep h => rw [read_body, h]
  | notObject hkind h hform hfilled =>
    simp only [read_body, h, textOf_eq, if_pos (And.intro hkind (And.intro hform hfilled))]

theorem read_of_holds (h : reply.Holds kind value) : read kind reply = .ok value := by
  obtain ⟨s, answer, rfl, hp, hat⟩ := h
  have hform : ¬ (kind = .ollama ∧ answer.members? = none ∧ answer.isVoid = false) := by
    rintro ⟨rfl, hnone, -⟩
    cases answer with
    | obj members => cases hnone
    | _ => cases hat
  simp only [read_body, hp, textOf_eq, if_neg hform, hat, Option.getD_some]

theorem read_cases (kind : ProviderKind) (reply : ProviderReply) :
    (∃ e, reply.Upsets kind e) ∨ (∃ value, reply.Holds kind value) ∨
      read kind reply = .ok .null := by
  cases reply with
  | unreachable => exact .inr (.inr rfl)
  | refused => exact .inl ⟨_, .refused⟩
  | body bytes =>
    by_cases hs : ∃ s, Utf8.bytes s = bytes
    · obtain ⟨s, rfl⟩ := hs
      cases hp : Json.parse s with
      | error fault =>
        cases fault with
        | malformed => exact .inr (.inr (by rw [read_body, hp]))
        | longNumber => exact .inl ⟨_, .longNumber hp⟩
        | tooDeep => exact .inl ⟨_, .tooDeep hp⟩
      | ok answer =>
        by_cases hform : kind = .ollama ∧ answer.members? = none ∧ answer.isVoid = false
        · exact .inl ⟨_, .notObject hform.1 hp hform.2.1 hform.2.2⟩
        · cases hat : answer.at? kind.textPlace with
          | some value => exact .inr (.inl ⟨value, s, answer, rfl, hp, hat⟩)
          | none =>
            refine .inr (.inr ?_)
            simp only [read_body, hp, textOf_eq, if_neg hform, hat, Option.getD_none]
    · exact .inl ⟨_, .notText fun s h => hs ⟨s, h⟩⟩

/-- **A reply fails** exactly when it upsets the reader. -/
theorem read_eq_error_iff :
    read kind reply = .error e ↔ reply.Upsets kind e := by
  refine ⟨fun h => ?_, read_of_upsets⟩
  obtain ⟨e', he⟩ | ⟨value, hv⟩ | hnull := read_cases kind reply
  · obtain rfl : e' = e := Except.error.inj ((read_of_upsets he).symm.trans h)
    exact he
  · rw [read_of_holds hv] at h
    cases h
  · rw [hnull] at h
    cases h

/-- What a reply has in the place of the text is read, unless it is nothing. -/
theorem read_eq_ok_iff
    (hvalue : value ≠ .null) : read kind reply = .ok value ↔ reply.Holds kind value := by
  refine ⟨fun h => ?_, read_of_holds⟩
  obtain ⟨e, he⟩ | ⟨value', hv⟩ | hnull := read_cases kind reply
  · rw [read_of_upsets he] at h
    cases h
  · obtain rfl : value' = value := Except.ok.inj ((read_of_holds hv).symm.trans h)
    exact hv
  · exact absurd (Except.ok.inj (h.symm.trans hnull)) hvalue

/-- A reply brings a text or nothing unless it fails or has something else in its place. -/
theorem read_brings_text_iff {kind : ProviderKind} {reply : ProviderReply} :
    (∃ text : Option String, read kind reply = .ok (Json.ofOption .str text)) ↔
      (∀ e, ¬ reply.Upsets kind e) ∧
        ∀ value, reply.Holds kind value → ∃ text, value = Json.ofOption .str text := by
  constructor
  · rintro ⟨text, h⟩
    refine ⟨fun e he => ?_, fun value hv => ⟨text, ?_⟩⟩
    · rw [read_of_upsets he] at h
      cases h
    · exact Except.ok.inj ((read_of_holds hv).symm.trans h)
  · rintro ⟨hcalm, hwords⟩
    obtain ⟨e, he⟩ | ⟨value, hv⟩ | hnull := read_cases kind reply
    · exact absurd he (hcalm e)
    · obtain ⟨text, rfl⟩ := hwords value hv
      exact ⟨text, read_of_holds hv⟩
    · exact ⟨none, hnull⟩

/-! ## Prompts -/

theorem generate_of_request {p : TextProvider} {prompt : String} (hready : p.isReady = true)
    (hr : p.request? prompt ≠ none) (x : Exchange) :
    (p.generate prompt x).1 = read p.kind x.upcoming := by
  obtain ⟨request, hr⟩ := Option.ne_none_iff_exists'.mp hr
  simp only [generate, if_pos hready, hr]
  rfl

/-- **What a prompt brings.** It is a text or nothing unless a ready provider has no endpoint or
gets a reply that fails or has something else in the place of the text. -/
theorem generate_brings_text_iff (p : TextProvider) (prompt : String) (x : Exchange) :
    ((∃ text : Option String, (p.generate prompt x).1 = .ok (Json.ofOption .str text)) ↔
        (p.isReady = true → p.request? prompt ≠ none ∧ (∀ e, ¬ x.upcoming.Upsets p.kind e) ∧
          ∀ value, x.upcoming.Holds p.kind value → ∃ text, value = Json.ofOption .str text)) ∧
      (∀ text, (p.generate prompt x).1 = .ok (.str text) ↔
        p.isReady = true ∧ p.request? prompt ≠ none ∧ x.upcoming.Holds p.kind (.str text)) ∧
      ∀ e, (p.generate prompt x).1 = .error e ↔
        p.isReady = true ∧ (p.request? prompt = none ∧ e = .badAddress ∨
          p.request? prompt ≠ none ∧ x.upcoming.Upsets p.kind e) := by
  by_cases hready : p.isReady = true
  · by_cases hr : p.request? prompt = none
    · have hout : (p.generate prompt x).1 = .error .badAddress := by
        simp only [generate, if_pos hready, hr]
      simp [hout, hready, hr, Eq.comm]
    · have hout := generate_of_request hready hr x
      refine ⟨?_, fun text => ?_, fun e => ?_⟩
      · rw [hout, read_brings_text_iff]
        simp [hready, hr]
      · rw [hout, read_eq_ok_iff (Json.noConfusion ·)]
        simp [hready, hr]
      · rw [hout, read_eq_error_iff]
        simp [hready, hr]
  · have hout : (p.generate prompt x).1 = .ok .null := by
      simp only [generate, if_neg hready]
    refine ⟨iff_of_true ⟨none, hout⟩ fun h => absurd h hready, fun text => ?_, fun e => ?_⟩
    · simp [hout, hready]
    · simp [hout, hready]

/-- Bytes that are no text upset every provider, and a list upsets a local model. -/
theorem generate_upset :
    (∀ kind, (generate ⟨kind, "m", "k", "http://h"⟩ "p" ⟨[.body [0xFF]], []⟩).1 =
      .error .notText) ∧
    (generate ⟨.ollama, "m", "", "http://h"⟩ "p" ⟨[.body [0x5B, 0x31, 0x5D]], []⟩).1 =
      .error .notObject := by
  constructor
  · rintro (_ | _ | _) <;> rfl
  · rfl

end TextProvider

end CodeAtlas
