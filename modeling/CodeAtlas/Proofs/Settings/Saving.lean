import CodeAtlas.Proofs.Table
import CodeAtlas.Settings.Writer

/-!
# Settings saved one after another

Each save reads the file, replaces one section and writes all of it again. The format may be any in
which what is written is read back, its names in any order.

* **`SettingsFile.loads_last_saved`**: what is loaded after saves.
-/

namespace CodeAtlas

/-! ## Settings in any order -/

/-- A step into a setting: to a name of a section, or to a place of a list. -/
inductive SettingStep where
  | name (name : String)
  | place (n : Nat)

/-- What steps into a setting end at; of a section or a list only that it is one. -/
def Setting.seen : Setting → List SettingStep → Option Setting
  | .group entries, .name name :: steps => (Table.get? entries name).bind (·.seen steps)
  | .list items, .place n :: steps => items[n]?.bind (·.seen steps)
  | .group _, [] => some (.group [])
  | .list _, [] => some (.list [])
  | v, [] => some v
  | _, _ :: _ => none

/-- What is seen from a name on. -/
def Settings.seen (s : Settings) (name : String) : Option (List SettingStep → Option Setting) :=
  (Table.get? s name).map Setting.seen

/-- A section of these texts and nothing else. -/
def Setting.HoldsOnly (v : Setting) (texts : String → Option String) : Prop :=
  ∃ entries, v = .group entries ∧ ∀ name, Table.get? entries name = (texts name).map .text

theorem Setting.holdsOnly_of_seen {v : Setting} {entries : Settings}
    {texts : String → Option String} (h : v.seen = (Setting.group entries).seen)
    (htexts : ∀ name, Table.get? entries name = (texts name).map .text) : v.HoldsOnly texts := by
  cases v with
  | group held =>
    refine ⟨held, rfl, fun name => ?_⟩
    have hname : (Table.get? held name).bind (·.seen []) =
        ((texts name).map Setting.text).bind (·.seen []) := htexts name ▸ congrFun h [.name name]
    generalize Table.get? held name = found at hname ⊢
    generalize texts name = saved at hname ⊢
    -- a text is seen as itself, and nothing else is seen as a text
    rcases found with _ | u <;> rcases saved with _ | text
    · rfl
    · cases hname
    · cases u <;> cases hname
    · cases u <;> cases hname
      rfl
  | _ => cases congrFun h []

/-- If the settings can be written, what is written is read as the same settings. -/
def SettingsFormat.ReadsBack (format : SettingsFormat) (s : Settings) : Prop :=
  ∀ content, format.write s = .ok content →
    ∃ t, (SettingsFile.text content).text?.map format.read = some (.ok t) ∧ t.seen = s.seen

theorem SettingsFormat.ReadsBack.of_eq {format : SettingsFormat} {s : Settings} {content : String}
    (hwrite : format.write s = .ok content)
    (hread : (SettingsFile.text content).text?.map format.read = some (.ok s)) :
    format.ReadsBack s := by
  intro other hother
  obtain rfl := Except.ok.inj (hwrite.symm.trans hother)
  exact ⟨s, hread, rfl⟩

/-! ## Saves -/

/-- A save of one section. -/
inductive SettingsSave where
  | provider (kind model key address : String)
  | knowledge (address key : String)

namespace SettingsSave

/-- The file after the save, and whether it could be written. -/
def run (format : SettingsFormat) (f : SettingsFile) :
    SettingsSave → SettingsFile × Except SettingsFault Bool
  | .provider kind model key address => f.saveProvider format kind model key address
  | .knowledge address key => f.saveKnowledge format address key

/-- The section that is saved. -/
def place : SettingsSave → String
  | .provider .. => "llm"
  | .knowledge .. => "knowledge"

/-- What is put into the section. -/
def values : SettingsSave → Settings
  | .provider kind model key address => providerSection kind model key address
  | .knowledge address key => knowledgeSection address key

/-- The settings after the save. -/
def change (c : SettingsSave) (s : Settings) : Settings := Table.put s c.place (.group c.values)

theorem run_eq (c : SettingsSave) (format : SettingsFormat) (f : SettingsFile) :
    c.run format f = f.save format c.change := by
  cases c <;> rfl

/-- What is saved under a name: no empty key, and of a provider no empty address. -/
def texts : SettingsSave → String → Option String
  | .provider kind model key address, name =>
    if name = "provider" then some kind
    else if name = "model" then some model
    else if name = "api_key" ∧ key ≠ "" then some key
    else if name = "endpoint" ∧ address ≠ "" then some address
    else none
  | .knowledge address key, name =>
    if name = "endpoint" then some address
    else if name = "api_key" ∧ key ≠ "" then some key
    else none

theorem get?_values (c : SettingsSave) (name : String) :
    Table.get? c.values name = (c.texts name).map .text := by
  cases c with
  | provider kind model key address =>
    by_cases hkey : key = "" <;> by_cases haddress : address = "" <;>
      simp [values, providerSection, filledSetting, texts, Table.get?_cons, hkey, haddress] <;>
      split_ifs <;> rfl
  | knowledge address key =>
    by_cases hkey : key = "" <;>
      simp [values, knowledgeSection, filledSetting, texts, Table.get?_cons, hkey] <;>
      split_ifs <;> rfl

/-- The last save of a section. -/
def last? (place : String) (saves : List SettingsSave) : Option SettingsSave :=
  (saves.filter (·.place == place)).getLast?

theorem last?_cons (place : String) (c : SettingsSave) (saves : List SettingsSave) :
    last? place (c :: saves) =
      (last? place saves).or (if c.place = place then some c else none) := by
  by_cases h : c.place = place
  · simp only [last?, List.filter_cons, h, beq_self_eq_true, if_true, List.getLast?_cons]
    cases (saves.filter (·.place == place)).getLast? <;> rfl
  · simp [last?, h]

theorem last?_interchange {c d : SettingsSave} (h : c.place ≠ d.place) (place : String)
    (front back : List SettingsSave) :
    last? place (front ++ c :: d :: back) = last? place (front ++ d :: c :: back) := by
  have hpair : (c :: d :: back).filter (·.place == place) =
      (d :: c :: back).filter (·.place == place) := by
    by_cases hc : c.place = place
    · have hd : d.place ≠ place := fun hd => h (hc.trans hd.symm)
      simp [hc, hd]
    · simp [List.filter_cons, hc]
  rw [last?, List.filter_append, hpair, ← List.filter_append, last?]

end SettingsSave

namespace SettingsFile

open SettingsSave

/-- Saves that succeed one after another, each writing settings that are read back. -/
inductive Saves (format : SettingsFormat) :
    SettingsFile → List SettingsSave → SettingsFile → Prop
  | nil (f : SettingsFile) : Saves format f [] f
  | cons {f g h : SettingsFile} {s : Settings} {c : SettingsSave} {saves : List SettingsSave}
      (loaded : f.load format = .ok s) (saved : c.run format f = (g, .ok true))
      (back : format.ReadsBack (c.change s)) (rest : Saves format g saves h) :
      Saves format f (c :: saves) h

variable {format : SettingsFormat} {f g : SettingsFile} {s : Settings} {saves : List SettingsSave}

theorem load_of_read {content : String}
    (h : (text content).text?.map format.read = some (.ok s)) :
    (text content).load format = .ok s := by
  have hread := Option.some.inj h
  simp only [load, text?, hread]

theorem exists_load_of_run {c : SettingsSave} (hload : f.load format = .ok s)
    (hsaved : c.run format f = (g, .ok true)) (hback : format.ReadsBack (c.change s)) :
    ∃ t, g.load format = .ok t ∧ t.seen = (c.change s).seen := by
  rw [run_eq, save, hload] at hsaved
  have hwritten : ∃ content, format.write (c.change s) = .ok content ∧ g = .text content := by
    cases hwrite : format.write (c.change s) with
    | ok content => cases f <;> simp_all [write]
    | error fault => cases f <;> simp_all [write]
  obtain ⟨content, hcontent, rfl⟩ := hwritten
  obtain ⟨t, ht, hseen⟩ := hback content hcontent
  exact ⟨t, load_of_read ht, hseen⟩

/-- **After saves** a section is the one saved last, or the one there was. -/
theorem Saves.exists_load (h : Saves format f saves g) (hload : f.load format = .ok s) :
    ∃ t, g.load format = .ok t ∧ ∀ name, t.seen name =
      ((last? name saves).map fun c => (Setting.group c.values).seen).or (s.seen name) := by
  induction h generalizing s with
  | nil f => exact ⟨s, hload, fun name => rfl⟩
  | @cons f g h s' c saves hloaded hsaved hback _ ih =>
    obtain rfl := Except.ok.inj (hloaded.symm.trans hload)
    obtain ⟨t, ht, hseen⟩ := exists_load_of_run hload hsaved hback
    -- the other saves start from what the first one wrote
    obtain ⟨u, hu, hnames⟩ := ih ht
    refine ⟨u, hu, fun name => ?_⟩
    have hput : t.seen name =
        if name = c.place then some (Setting.group c.values).seen else s'.seen name := by
      rw [hseen, Settings.seen, change, Table.get?_put]
      split_ifs <;> rfl
    rw [hnames, hput, last?_cons]
    by_cases hname : name = c.place
    · cases last? name saves <;> simp [hname]
    · simp [hname, Ne.symm hname]

/-- **Settings after saves.** In any format that reads back, the two sections are those saved last,
everything else is as it was, and saves of different sections may be interchanged. -/
theorem loads_last_saved (hload : f.load format = .ok s) (hsaves : Saves format f saves g) :
    ∃ t, g.load format = .ok t ∧
      (∀ c, last? "llm" saves = some c → t.provider.HoldsOnly c.texts) ∧
      (last? "llm" saves = none → t.provider.seen = s.provider.seen) ∧
      (∀ c, last? "knowledge" saves = some c → t.knowledge.HoldsOnly c.texts) ∧
      (last? "knowledge" saves = none → t.knowledge.seen = s.knowledge.seen) ∧
      (∀ name, name ≠ "llm" → name ≠ "knowledge" → t.seen name = s.seen name) ∧
      ∀ front c d back g', saves = front ++ c :: d :: back → c.place ≠ d.place →
        Saves format f (front ++ d :: c :: back) g' →
          ∃ t', g'.load format = .ok t' ∧ t'.seen = t.seen := by
  obtain ⟨t, ht, hseen⟩ := hsaves.exists_load hload
  have hsection : ∀ (place : String) (otherwise : Setting),
      (∀ c, last? place saves = some c →
        ((Table.get? t place).getD otherwise).HoldsOnly c.texts) ∧
      (last? place saves = none → ((Table.get? t place).getD otherwise).seen =
        ((Table.get? s place).getD otherwise).seen) := by
    intro place otherwise
    have hget : ∀ u : Settings, ((Table.get? u place).getD otherwise).seen =
        (u.seen place).getD otherwise.seen := fun u => by rw [Settings.seen, Option.getD_map]
    refine ⟨fun c hc => Setting.holdsOnly_of_seen ?_ c.get?_values, fun hc => ?_⟩
    · rw [hget, hseen, hc]
      rfl
    · rw [hget, hget, hseen, hc]
      rfl
  refine ⟨t, ht, (hsection "llm" _).1, (hsection "llm" _).2, (hsection "knowledge" _).1,
    (hsection "knowledge" _).2, fun name hllm hknowledge => ?_, ?_⟩
  · have hnone : last? name saves = none := by
      refine List.getLast?_eq_none_iff.mpr (List.filter_eq_nil_iff.mpr fun c _ hc => ?_)
      cases c
      · exact hllm (beq_iff_eq.mp hc).symm
      · exact hknowledge (beq_iff_eq.mp hc).symm
    rw [hseen, hnone]
    rfl
  · rintro front c d back g' rfl hne hsaves'
    obtain ⟨t', ht', hseen'⟩ := hsaves'.exists_load hload
    refine ⟨t', ht', funext fun name => ?_⟩
    rw [hseen', hseen, last?_interchange hne]

/-! ## A provider without a key and a service saved over an old key -/

namespace Desk

def ui : String × Setting := ("ui", .group [("dark", .flag true)])

def llm : String × Setting := ("llm", .group [("provider", .text "p"), ("model", .text "m")])

def provider : SettingsSave := .provider "p" "m" "" ""

def knowledge : SettingsSave := .knowledge "e" ""

def worn : String := "[llm]\napi_key = \"k\"\n\n[ui]\ndark = true\n"

def chosen : String := "[llm]\nprovider = \"p\"\nmodel = \"m\"\n\n[ui]\ndark = true\n"

def renewed : String :=
  "[llm]\nprovider = \"p\"\nmodel = \"m\"\n\n[ui]\ndark = true\n\n[knowledge]\nendpoint = \"e\"\n"

end Desk

open Desk in
theorem loads_last_saved_desk :
    ∃ t, (text renewed).load .plain = .ok t ∧ t.provider.HoldsOnly provider.texts ∧
      t.knowledge.HoldsOnly knowledge.texts ∧ t.seen "ui" = some ui.2.seen := by
  have hworn : (text worn).text?.map SettingsFormat.plain.read =
      some (.ok [("llm", .group [("api_key", .text "k")]), ui]) := rfl
  have hchosen : (text chosen).text?.map SettingsFormat.plain.read = some (.ok [llm, ui]) := rfl
  have hrenewed : (text renewed).text?.map SettingsFormat.plain.read =
      some (.ok [llm, ui, ("knowledge", .group [("endpoint", .text "e")])]) := rfl
  have hload := load_of_read hworn
  have hsaves : Saves .plain (text worn) [provider, knowledge] (text renewed) :=
    .cons hload (by decide +kernel) (.of_eq (by decide +kernel) hchosen)
      (.cons (load_of_read hchosen) (by decide +kernel)
        (.of_eq (by decide +kernel) hrenewed) (.nil _))
  obtain ⟨t, ht, hllm, -, hknowledge, -, hother, -⟩ := loads_last_saved hload hsaves
  exact ⟨t, ht, hllm _ rfl, hknowledge _ rfl, hother "ui" (by decide) (by decide)⟩

end SettingsFile

end CodeAtlas
