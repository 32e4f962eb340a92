import Mathlib.Data.List.Forall2

/-!
# Steps that may fail

* `Meets`: what is known of a step that succeeds and of one that fails, with `Meets.bind` for two
  steps in a row and `Meets.mapM`, `Meets.foldlM` for a series of them.
-/

namespace CodeAtlas

variable {α β ε : Type} {f : α → Except ε β} {xs : List α}

theorem ok_bind (a : α) (f : α → Except ε β) : Except.ok a >>= f = f a := rfl

theorem bind_eq_ok {x : Except ε α} {b : β} :
    x >>= f = .ok b ↔ ∃ a, x = .ok a ∧ f a = .ok b := by
  cases x with
  | error fault =>
    constructor
    · intro h
      cases h
    · rintro ⟨a, h, -⟩
      cases h
  | ok a =>
    constructor
    · exact fun h => ⟨a, rfl, h⟩
    · rintro ⟨a', ha, h⟩
      exact Except.ok.inj ha ▸ h

theorem map_eq_ok {x : Except ε α} {f : α → β} {b : β} :
    x.map f = .ok b ↔ ∃ a, x = .ok a ∧ f a = b := by
  cases x with
  | error fault => simp [Except.map]
  | ok a => simp [Except.map]

theorem forall₂_iff_map_eq {γ : Type} {f : α → γ} {g : β → γ} {ys : List β} :
    List.Forall₂ (fun x y => f x = g y) xs ys ↔ xs.map f = ys.map g := by
  rw [← List.forall₂_eq_eq_eq, List.forall₂_map_left_iff, List.forall₂_map_right_iff]

theorem forall₂_of_mapM_ok {ys : List β} (h : xs.mapM f = .ok ys) :
    List.Forall₂ (fun x y => f x = .ok y) xs ys := by
  induction xs generalizing ys with
  | nil =>
    obtain rfl := Except.ok.inj (List.mapM_nil.symm.trans h)
    exact .nil
  | cons x xs ih =>
    rw [List.mapM_cons] at h
    obtain ⟨y, hx, h⟩ := bind_eq_ok.mp h
    obtain ⟨ys', hxs, h⟩ := bind_eq_ok.mp h
    obtain rfl := Except.ok.inj h
    exact .cons hx (ih hxs)

theorem mapM_eq_ok {g : α → β} (h : ∀ x ∈ xs, f x = .ok (g x)) :
    xs.mapM f = .ok (xs.map g) := by
  induction xs with
  | nil => exact List.mapM_nil
  | cons x xs ih =>
    rw [List.mapM_cons, h x List.mem_cons_self, ih fun y hy => h y (List.mem_cons_of_mem x hy)]
    rfl

theorem exists_mapM (h : ∀ x ∈ xs, ∃ y, f x = .ok y) : ∃ ys, xs.mapM f = .ok ys := by
  induction xs with
  | nil => exact ⟨[], List.mapM_nil⟩
  | cons x xs ih =>
    obtain ⟨⟨y, hy⟩, hxs⟩ := List.forall_mem_cons.mp h
    obtain ⟨ys, hys⟩ := ih hxs
    exact ⟨y :: ys, by rw [List.mapM_cons, hy, hys]; rfl⟩

theorem mapM_sublist {ys : List α} {bs : List β} (h : xs.Sublist ys) (hys : ys.mapM f = .ok bs) :
    ∃ as, xs.mapM f = .ok as ∧ as.Sublist bs := by
  induction h generalizing bs with
  | slnil => exact ⟨bs, hys, List.Sublist.refl _⟩
  | cons y _ ih =>
    rw [List.mapM_cons] at hys
    obtain ⟨b, -, hys⟩ := bind_eq_ok.mp hys
    obtain ⟨bs', hrest, hys⟩ := bind_eq_ok.mp hys
    obtain rfl := Except.ok.inj hys
    obtain ⟨as, has, hsub⟩ := ih hrest
    exact ⟨as, has, hsub.cons b⟩
  | cons_cons y _ ih =>
    rw [List.mapM_cons] at hys
    obtain ⟨b, hy, hys⟩ := bind_eq_ok.mp hys
    obtain ⟨bs', hrest, hys⟩ := bind_eq_ok.mp hys
    obtain rfl := Except.ok.inj hys
    obtain ⟨as, has, hsub⟩ := ih hrest
    refine ⟨b :: as, ?_, hsub.cons_cons b⟩
    rw [List.mapM_cons, hy, has]
    rfl

theorem mapM_eq_error_iff {fault : ε}
    (h : ∀ x ∈ xs, ∀ other, f x = .error other → other = fault) :
    xs.mapM f = .error fault ↔ ∃ x ∈ xs, f x = .error fault := by
  induction xs with
  | nil => simp [List.mapM_nil, pure, Except.pure]
  | cons x xs ih =>
    obtain ⟨hx, hxs⟩ := List.forall_mem_cons.mp h
    simp only [List.mapM_cons, List.mem_cons, exists_eq_or_imp, ← ih hxs]
    cases hfx : f x with
    | error other =>
      obtain rfl := hx other hfx
      exact iff_of_true rfl (Or.inl rfl)
    | ok y =>
      rw [ok_bind]
      cases hrest : xs.mapM f with
      | error other => simp [bind, Except.bind]
      | ok ys => simp [bind, Except.bind, pure, Except.pure]

theorem mapM_congr {g : α → Except ε β} (h : ∀ x ∈ xs, f x = g x) :
    xs.mapM f = xs.mapM g := by
  induction xs with
  | nil => rw [List.mapM_nil, List.mapM_nil]
  | cons x xs ih =>
    rw [List.mapM_cons, List.mapM_cons, h x List.mem_cons_self,
      ih fun y hy => h y (List.mem_cons_of_mem x hy)]

theorem foldlM_congr {f g : β → α → Except ε β}
    (h : ∀ x ∈ xs, ∀ b, f b x = g b x) (b : β) : xs.foldlM f b = xs.foldlM g b := by
  induction xs generalizing b with
  | nil => rw [List.foldlM_nil, List.foldlM_nil]
  | cons x xs ih =>
    rw [List.foldlM_cons, List.foldlM_cons, h x List.mem_cons_self]
    exact bind_congr fun b => ih (fun y hy => h y (List.mem_cons_of_mem x hy)) b

/-- What succeeds meets `P`, what fails meets `Q`. -/
inductive Meets (P : α → Prop) (Q : ε → Prop) : Except ε α → Prop
  | ok {a : α} (h : P a) : Meets P Q (.ok a)
  | error {fault : ε} (h : Q fault) : Meets P Q (.error fault)

namespace Meets

variable {P : α → Prop} {Q : ε → Prop} {R : β → Prop} {x : Except ε α}

theorem of_eq_ok (h : Meets P Q x) {a : α} (hx : x = .ok a) : P a := by
  cases h with
  | ok h => exact Except.ok.inj hx ▸ h
  | error h => cases hx

theorem of_eq_error (h : Meets P Q x) {fault : ε} (hx : x = .error fault) : Q fault := by
  cases h with
  | ok h => cases hx
  | error h => exact Except.error.inj hx ▸ h

theorem imp (h : Meets P Q x) {P' : α → Prop} (hP : ∀ a, P a → P' a) : Meets P' Q x := by
  cases h with
  | ok h => exact .ok (hP _ h)
  | error h => exact .error h

theorem bind (hx : Meets P Q x) (hf : ∀ a, P a → Meets R Q (f a)) :
    Meets R Q (x >>= f) := by
  cases hx with
  | ok h => exact hf _ h
  | error h => exact .error h

theorem mapM {f : β → Except ε α} {xs : List β} (h : ∀ x ∈ xs, Meets P Q (f x)) :
    Meets (fun ys => ∀ y ∈ ys, P y) Q (xs.mapM f) := by
  induction xs with
  | nil => exact .ok fun y hy => absurd hy List.not_mem_nil
  | cons x xs ih =>
    obtain ⟨hx, hxs⟩ := List.forall_mem_cons.mp h
    rw [List.mapM_cons]
    refine hx.bind fun y hy => (ih hxs).bind fun ys hys => .ok ?_
    exact List.forall_mem_cons.mpr ⟨hy, hys⟩

theorem foldlM {step : β → α → Except ε β} (hstep : ∀ b, R b → ∀ x, Meets R Q (step b x))
    {b : β} (hb : R b) (xs : List α) : Meets R Q (xs.foldlM step b) := by
  induction xs generalizing b with
  | nil => exact .ok hb
  | cons x xs ih =>
    rw [List.foldlM_cons]
    exact (hstep b hb x).bind fun c hc => ih hc

end Meets

end CodeAtlas
