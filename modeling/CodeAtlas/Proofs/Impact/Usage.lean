import CodeAtlas.Impact.Spread
import CodeAtlas.Proofs.Outcome

/-!
# The lines that use a symbol

A text is looked through line by line, so it yields each line at most once. More than one path leads
to a file only where links do.

* **`count_usagesInText`**: a line is found once, if it uses the symbol.
-/

namespace CodeAtlas

/-! ## In a text -/

def kindOf? (symbol line : String) : Option String :=
  if usesSymbol (withoutComment line) symbol then some (usageKind (withoutComment line) symbol)
  else none

def kindAt? (text symbol : String) (n : Nat) : Option String :=
  (Text.linesOf text)[n - 1]?.bind (kindOf? symbol)

def usageKinds : List String := ["call", "import", "inheritance", "reference"]

theorem usageKind_mem (code symbol : String) : usageKind code symbol ∈ usageKinds := by
  unfold usageKind
  split_ifs <;> decide

theorem kindOf?_eq_some {symbol line kind : String} (h : kindOf? symbol line = some kind) :
    usesSymbol (withoutComment line) symbol = true ∧ kind ∈ usageKinds := by
  unfold kindOf? at h
  split at h
  · rename_i huses
    exact ⟨huses, Option.some.inj h ▸ usageKind_mem _ _⟩
  · cases h

section Text

variable {file symbol : String} {before lines : List String} {number : Nat} {u : Usage}

theorem mem_usagesFrom (h : u ∈ usagesFrom file symbol before number lines) :
    u.file = file ∧ (number : Int) ≤ u.line ∧ u.kind ∈ usageKinds := by
  induction lines generalizing before number with
  | nil => exact absurd h List.not_mem_nil
  | cons line rest ih =>
    rw [usagesFrom] at h
    rcases List.mem_append.mp h with h | h
    · split at h
      · have hkind := usageKind_mem (withoutComment line) symbol
        obtain rfl := List.mem_singleton.mp h
        dsimp only
        exact ⟨rfl, Int.le_refl _, hkind⟩
      · exact absurd h List.not_mem_nil
    · obtain ⟨hfile, hline, hkind⟩ := ih h
      exact ⟨hfile, by omega, hkind⟩

theorem count_usagesFrom (keep : String → Bool) (k : Nat) :
    (((usagesFrom file symbol before number lines).filter (keep ·.kind)).map (·.line)).count
      ((number + k : Nat) : Int) =
    if (lines[k]?.bind (kindOf? symbol)).any keep then 1 else 0 := by
  induction lines generalizing before number k with
  | nil => rfl
  | cons line rest ih =>
    rw [usagesFrom, List.filter_append, List.map_append, List.count_append]
    cases k with
    | zero =>
      -- the lines after the first have higher numbers
      have hrest : (((usagesFrom file symbol [line] (number + 1) rest).filter (keep ·.kind)).map
          (·.line)).count ((number + 0 : Nat) : Int) = 0 := by
        refine List.count_eq_zero.mpr fun hmem => ?_
        obtain ⟨u, hu, hline⟩ := List.mem_map.mp hmem
        obtain ⟨-, hle, -⟩ := mem_usagesFrom (List.mem_filter.mp hu).1
        omega
      rw [hrest, List.getElem?_cons_zero, Option.bind_some, kindOf?]
      by_cases huses : usesSymbol (withoutComment line) symbol = true
      · by_cases hkeep : keep (usageKind (withoutComment line) symbol) = true
        · simp [huses, hkeep]
        · simp [huses, hkeep]
      · simp [huses]
    | succ k =>
      have hfirst : ∀ found : List Usage, (∀ v ∈ found, v.line = (number : Int)) →
          ((found.filter (keep ·.kind)).map (·.line)).count ((number + (k + 1) : Nat) : Int) =
            0 := by
        intro found hfound
        refine List.count_eq_zero.mpr fun hmem => ?_
        obtain ⟨v, hv, hline⟩ := List.mem_map.mp hmem
        have hnumber := hfound v (List.mem_filter.mp hv).1
        omega
      have hshift : number + (k + 1) = number + 1 + k := by omega
      rw [hfirst _ (by intro v hv; split at hv <;> simp_all), Nat.zero_add, hshift, ih,
        List.getElem?_cons_succ]

end Text

/-- **A line is found once**, if it uses the symbol for something that is looked for. -/
theorem count_usagesInText (file text symbol : String) (keep : String → Bool) {n : Nat}
    (hn : 1 ≤ n) :
    (((usagesInText file text symbol).filter (keep ·.kind)).map (·.line)).count (n : Int) =
      if (kindAt? text symbol n).any keep then 1 else 0 := by
  obtain ⟨k, rfl⟩ : ∃ k, n = 1 + k := ⟨n - 1, by omega⟩
  have hk : 1 + k - 1 = k := by omega
  rw [usagesInText, count_usagesFrom, kindAt?, hk]

/-! ## In a repository -/

namespace Workspace

variable {w : Workspace} {repo path : Path} {symbol file : String} {us : List Usage}

def textAt? (w : Workspace) (repo : Path) (file : String) (path : Path) : Option String :=
  match w.relative repo path, w.file path with
  | .ok seen, .ok f => if seen == file then f.text else none
  | _, _ => none

def textsOf (w : Workspace) (repo : Path) (file : String) : List String :=
  match w.sourceFiles repo none with
  | .ok paths => paths.filterMap (w.textAt? repo file)
  | .error _ => []

theorem filter_usagesInFile (h : w.usagesInFile repo symbol path = .ok us) (file : String) :
    us.filter (·.file == file) =
      (w.textAt? repo file path).toList.flatMap (usagesInText file · symbol) := by
  unfold usagesInFile at h
  obtain ⟨seen, hseen, h⟩ := bind_eq_ok.mp h
  unfold textAt?
  rw [hseen]
  cases hfile : w.file path with
  | error fault =>
    rw [hfile] at h
    obtain rfl := Except.ok.inj h
    rfl
  | ok f =>
    rw [hfile] at h
    obtain rfl := Except.ok.inj h
    cases htext : f.text with
    | none => simp [htext]
    | some text =>
      have hsame : ∀ u ∈ usagesInText seen text symbol, u.file = seen :=
        fun u hu => (mem_usagesFrom hu).1
      by_cases heq : seen = file
      · subst heq
        simpa [htext] using hsame
      · have hnone : (usagesInText seen text symbol).filter (·.file == file) = [] := by
          refine List.filter_eq_nil_iff.mpr fun u hu hc => heq ?_
          exact (hsame u hu).symm.trans (beq_iff_eq.mp hc)
        simpa [htext, heq] using hnone

theorem filter_usages (h : w.usages repo symbol none = .ok us) (file : String) :
    us.filter (·.file == file) = (w.textsOf repo file).flatMap (usagesInText file · symbol) := by
  unfold usages at h
  unfold textsOf
  cases hpaths : w.sourceFiles repo none with
  | error fault =>
    rw [hpaths] at h
    cases h
  | ok paths =>
    rw [hpaths] at h
    obtain ⟨parts, hparts, hus⟩ := bind_eq_ok.mp h
    obtain rfl := Except.ok.inj hus
    have hforall := forall₂_of_mapM_ok hparts
    clear hpaths h hparts hus
    dsimp only
    induction hforall with
    | nil => rfl
    | cons hpart _ ih =>
      rename_i path part paths parts _
      have hhead := filter_usagesInFile hpart file
      rw [List.flatten_cons, List.filter_append, hhead, ih]
      cases htext : w.textAt? repo file path with
      | none => simp [htext]
      | some text => simp [htext]

theorem kind_of_mem (h : w.usages repo symbol none = .ok us) {u : Usage} (hu : u ∈ us) :
    u.kind ∈ usageKinds := by
  have hmem : u ∈ us.filter (·.file == u.file) := List.mem_filter.mpr ⟨hu, beq_self_eq_true _⟩
  rw [filter_usages h] at hmem
  obtain ⟨text, -, htext⟩ := List.mem_flatMap.mp hmem
  exact (mem_usagesFrom htext).2.2

end Workspace

end CodeAtlas
