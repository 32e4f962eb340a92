import CodeAtlas.Table
import Mathlib.Data.List.Nodup

/-!
# What tables hold

* `Table.get?_of_mem`, `Table.get?_eq_some_iff`: with distinct keys every value is found under its
  key.
* `Table.get?_put`, `Table.get?_keep`: a value put in is found, and all others are found as before.
* `Table.get?_foldl_keep_put`: values put in under two keys each.
* `Table.forall_put`, `Table.forall_keep`, `Table.getD_of_forall`: what holds of all values.
-/

namespace CodeAtlas

namespace Table

variable {κ α : Type} [BEq κ] [LawfulBEq κ] {t : Table κ α} {key : κ}

theorem has_iff : t.has key = true ↔ key ∈ t.keys := by
  simp [has, keys]

theorem get?_cons [DecidableEq κ] (entry : κ × α) (t : Table κ α) (key : κ) :
    get? (entry :: t) key = if key = entry.1 then some entry.2 else t.get? key := by
  rw [get?, List.find?_cons]
  by_cases h : key = entry.1
  · simp [h]
  · rw [if_neg h, beq_false_of_ne (Ne.symm h)]
    rfl

theorem get?_of_mem (hd : t.keys.Nodup) {value : α} (h : (key, value) ∈ t) :
    t.get? key = some value := by
  classical
  induction t with
  | nil => exact absurd h List.not_mem_nil
  | cons entry t ih =>
    rw [keys, List.map_cons, List.nodup_cons] at hd
    rw [get?_cons]
    rcases List.mem_cons.mp h with rfl | h
    · exact if_pos rfl
    · have hne : key ≠ entry.1 := fun he => hd.1 (he ▸ List.mem_map_of_mem (f := Prod.fst) h)
      rw [if_neg hne, ih hd.2 h]

theorem get?_eq_some_iff {value : α} (hd : t.keys.Nodup) :
    t.get? key = some value ↔ (key, value) ∈ t := by
  constructor
  · intro h
    obtain ⟨entry, hentry, rfl⟩ := Option.map_eq_some_iff.mp h
    have hkey : entry.1 = key := by simpa using List.find?_some hentry
    exact hkey ▸ List.mem_of_find?_eq_some hentry
  · exact get?_of_mem hd

theorem get?_put [DecidableEq κ] (t : Table κ α) (key other : κ) (value : α) :
    (t.put key value).get? other = if other = key then some value else t.get? other := by
  unfold put
  by_cases hkey : key ∈ t.keys
  · have hfirst : ((·.1 == other) ∘ fun entry : κ × α =>
        if entry.1 == key then (entry.1, value) else entry) = (·.1 == other) := by
      funext entry
      by_cases he : entry.1 = key <;> simp [he]
    rw [if_pos (has_iff.mpr hkey), get?, List.find?_map, hfirst, Option.map_map, get?]
    cases hfound : t.find? (·.1 == other) with
    | none =>
      have hne : other ≠ key := by
        rintro rfl
        obtain ⟨entry, hentry, hid⟩ := List.mem_map.mp hkey
        exact List.find?_eq_none.mp hfound entry hentry (beq_iff_eq.mpr hid)
      rw [if_neg hne]
      rfl
    | some entry =>
      have hid : entry.1 = other := by simpa using List.find?_some hfound
      by_cases hother : other = key <;> simp [hid, hother]
  · rw [if_neg fun hhas => hkey (has_iff.mp hhas), get?, List.find?_append]
    by_cases hother : other = key
    · subst hother
      have hnone : t.find? (·.1 == other) = none := by
        refine List.find?_eq_none.mpr fun entry hentry hid => hkey ?_
        exact List.mem_map.mpr ⟨entry, hentry, beq_iff_eq.mp hid⟩
      simp [hnone]
    · simp [hother, Ne.symm hother, get?]

omit [LawfulBEq κ] in
theorem keep_eq (t : Table κ α) (key : κ) (value : α) :
    t.keep key value = if t.has key then t else t.put key value := by
  unfold keep put
  split_ifs <;> rfl

theorem get?_keep [DecidableEq κ] (t : Table κ α) (key other : κ) (value : α) :
    (t.keep key value).get? other =
      if other = key then (t.get? other).or (some value) else t.get? other := by
  rw [keep_eq]
  split_ifs with hkey hother hother
  · obtain ⟨entry, hentry, hid⟩ := List.any_eq_true.mp hkey
    cases hfound : t.get? other with
    | some found => rfl
    | none =>
      have hnone := List.find?_eq_none.mp (Option.map_eq_none_iff.mp hfound) entry hentry
      exact absurd (hother ▸ hid) hnone
  · rfl
  · have hnone : t.find? (·.1 == key) = none :=
      List.find?_eq_none.mpr fun entry he hid => hkey (List.any_eq_true.mpr ⟨entry, he, hid⟩)
    rw [get?_put, if_pos hother, hother, get?, hnone]
    rfl
  · rw [get?_put, if_neg hother]

theorem getD_keep (t : Table κ α) (key other : κ) (value : α) :
    (t.keep key value).getD other value = t.getD other value := by
  classical
  rw [getD, get?_keep, getD]
  split_ifs <;> cases t.get? other <;> rfl

/-- Under the one key the first value stays, under the other the last, which comes first. -/
theorem get?_foldl_keep_put [DecidableEq κ] {β : Type} (first last : β → κ) (value : β → α)
    (xs : List β) (t : Table κ α) (key : κ) :
    (xs.foldl (fun t x => (t.keep (first x) (value x)).put (last x) (value x)) t).get? key =
      ((xs.reverse.find? (last · == key)).map value).or
        ((t.get? key).or ((xs.find? (first · == key)).map value)) := by
  induction xs generalizing t with
  | nil => simp
  | cons x xs ih =>
    rw [List.foldl_cons, ih, get?_put, get?_keep, List.reverse_cons, List.find?_append]
    by_cases hlast : last x = key
    · simp [hlast]
    · by_cases hfirst : first x = key
      · simp [hlast, hfirst, Ne.symm hlast]
      · simp [hlast, hfirst, Ne.symm hlast, Ne.symm hfirst]

section Values

omit [LawfulBEq κ]

variable {P : α → Prop} {value : α}

theorem forall_put (h : ∀ entry ∈ t, P entry.2) (hvalue : P value) :
    ∀ entry ∈ t.put key value, P entry.2 := by
  intro entry hentry
  unfold put at hentry
  split_ifs at hentry
  · obtain ⟨old, hold, rfl⟩ := List.mem_map.mp hentry
    split_ifs
    · exact hvalue
    · exact h old hold
  · rcases List.mem_append.mp hentry with hentry | hentry
    · exact h entry hentry
    · rw [List.mem_singleton.mp hentry]
      exact hvalue

theorem forall_keep (h : ∀ entry ∈ t, P entry.2) (hvalue : P value) :
    ∀ entry ∈ t.keep key value, P entry.2 := by
  rw [keep_eq]
  split_ifs
  · exact h
  · exact forall_put h hvalue

theorem getD_of_forall (h : ∀ entry ∈ t, P entry.2) (hvalue : P value) :
    P (t.getD key value) := by
  unfold getD get?
  cases hfound : t.find? (·.1 == key) with
  | none => exact hvalue
  | some entry => exact h entry (List.mem_of_find?_eq_some hfound)

end Values

end Table

end CodeAtlas
