import CodeAtlas.Graph.Search
import CodeAtlas.Proofs.Graph.Dependency
import Mathlib.Data.List.Chain
import Mathlib.Data.List.Perm.Basic

/-!
# Runs of the depth-first search

A search goes from state to state by five kinds of moves. Beside the state stand the roots that are
left and the nodes that have been closed, newest first.

* **`Traversal.run_keeps`**, **`depthFirst_keeps`**: what each move keeps, the search keeps.
-/

namespace CodeAtlas

open Relation

def Follows (next : String → List String) (a b : String) : Prop := b ∈ next a

theorem Graph.follows_ahead (g : Graph) : Follows g.ahead.targets = g.DependsOn := by
  funext a b
  exact propext mem_ahead

namespace Traversal

variable {σ : Type}

/-- One move of a search, with the roots that are left and the nodes closed so far. -/
inductive Move (v : Visitor σ) (next : String → List String) :
    Traversal σ → List String → List String → Traversal σ → List String → List String → Prop
  | root {s : Traversal σ} {node : String} {roots closed : List String} (hp : s.path = [])
      (hf : node ∈ s.fresh) :
      Move v next s (node :: roots) closed (s.enter v next node) roots closed
  | skip {s : Traversal σ} {node : String} {roots closed : List String} (hp : s.path = [])
      (hf : node ∉ s.fresh) : Move v next s (node :: roots) closed s roots closed
  | close {s : Traversal σ} {node : String} {path : List (String × List String)}
      {roots closed : List String} (hp : s.path = (node, []) :: path) :
      Move v next s roots closed ⟨s.fresh, path, v.close node (nodesOn path) s.notes⟩ roots
        (node :: closed)
  | descend {s : Traversal σ} {node successor : String} {rest : List String}
      {path : List (String × List String)} {roots closed : List String}
      (hp : s.path = (node, successor :: rest) :: path) (hf : successor ∈ s.fresh) :
      Move v next s roots closed
        (enter v next ⟨s.fresh, (node, rest) :: path, s.notes⟩ successor) roots closed
  | meet {s : Traversal σ} {node successor : String} {rest : List String}
      {path : List (String × List String)} {roots closed : List String}
      (hp : s.path = (node, successor :: rest) :: path) (hf : successor ∉ s.fresh) :
      Move v next s roots closed
        ⟨s.fresh, (node, rest) :: path, v.meet node (nodesOn path) successor s.notes⟩ roots closed

variable {v : Visitor σ} {next : String → List String} {s s' : Traversal σ}
  {roots roots' closed closed' : List String}

/-- **What each move keeps, the run keeps.** -/
theorem run_keeps {I : Traversal σ → List String → List String → Prop}
    (hI : ∀ {s roots closed s' roots' closed'}, Move v next s roots closed s' roots' closed' →
      I s roots closed → I s' roots' closed')
    (h : I s roots closed) :
    (run v next s roots).path = [] ∧ ∃ closed', I (run v next s roots) [] closed' := by
  fun_induction run v next s roots generalizing closed with
  | case1 s hp => exact ⟨hp, closed, h⟩
  | case2 s hp root roots hf ih => exact ih (hI (.root hp hf) h)
  | case3 s hp root roots hf ih => exact ih (hI (.skip hp hf) h)
  | case4 s roots node path hp ih => exact ih (hI (.close hp) h)
  | case5 s roots node successor rest path hp hf ih => exact ih (hI (.descend hp hf) h)
  | case6 s roots node successor rest path hp hf ih => exact ih (hI (.meet hp hf) h)

/-! ## Looks at successors -/

def Looked (path : List (String × List String)) (x y : String) : Prop :=
  ∀ rest, (x, rest) ∈ path → y ∉ rest

variable {node successor x y : String} {rest : List String} {path : List (String × List String)}

theorem Looked.tail (h : Looked ((node, rest) :: path) x y) : Looked path x y :=
  fun l hl => h l (List.mem_cons_of_mem _ hl)

theorem Looked.look (h : Looked ((node, successor :: rest) :: path) x y) :
    Looked ((node, rest) :: path) x y := by
  intro l hl
  rcases List.mem_cons.mp hl with e | hl
  · obtain ⟨hn, rfl⟩ := Prod.mk.inj e
    intro hm
    exact h (successor :: l) (hn ▸ List.mem_cons_self) (List.mem_cons_of_mem _ hm)
  · exact h l (List.mem_cons_of_mem _ hl)

theorem Looked.of_look (h : Looked ((node, rest) :: path) x y)
    (hne : ¬ (x = node ∧ y = successor)) : Looked ((node, successor :: rest) :: path) x y := by
  intro l hl
  rcases List.mem_cons.mp hl with e | hl
  · obtain ⟨rfl, rfl⟩ := Prod.mk.inj e
    rw [List.mem_cons, not_or]
    exact ⟨fun e => hne ⟨rfl, e⟩, h rest List.mem_cons_self⟩
  · exact h l (List.mem_cons_of_mem _ hl)

theorem Looked.of_tail (h : Looked path x y) : Looked ((node, []) :: path) x y := by
  intro l hl
  rcases List.mem_cons.mp hl with e | hl
  · rw [(Prod.mk.inj e).2]
    exact List.not_mem_nil
  · exact h l hl

theorem looked_of_notMem (h : x ∉ nodesOn path) : Looked path x y :=
  fun _ hl => absurd (List.mem_map_of_mem (f := (·.1)) hl) h

/-! ## Fresh, open and closed nodes -/

/-- What holds in every state of a search of the nodes `ids`. -/
structure Valid (next : String → List String) (ids : List String) (s : Traversal σ)
    (roots closed : List String) : Prop where
  /-- Each node is fresh, open or closed, and only one of these. -/
  split : (s.fresh ++ (s.openNodes ++ closed)).Perm ids.eraseDups
  /-- A fresh node is still to come as a root. -/
  due : ∀ x ∈ s.fresh, x ∈ roots
  /-- An open node is a successor of the next outer one. -/
  linked : s.openNodes.IsChain fun b a => Follows next a b
  rests : ∀ e ∈ s.path, e.2 <:+ next e.1

variable {ids : List String}

theorem openNodes_eq (hp : s.path = (node, rest) :: path) : s.openNodes = node :: nodesOn path := by
  rw [openNodes, hp, nodesOn, List.map_cons, nodesOn]

theorem mem_openNodes (hp : s.path = (node, rest) :: path) :
    x ∈ s.openNodes ↔ x = node ∨ x ∈ nodesOn path := by
  rw [openNodes_eq hp, List.mem_cons]

theorem innermost_mem (hp : s.path = (node, rest) :: path) : node ∈ s.openNodes :=
  (mem_openNodes hp).mpr (Or.inl rfl)

theorem outer_mem (hp : s.path = (node, rest) :: path) (hx : x ∈ nodesOn path) :
    x ∈ s.openNodes :=
  (mem_openNodes hp).mpr (Or.inr hx)

namespace Valid

theorem nodup (h : Valid next ids s roots closed) :
    (s.fresh ++ (s.openNodes ++ closed)).Nodup :=
  h.split.nodup_iff.mpr (nodup_eraseDups ids)

theorem nodup_open (h : Valid next ids s roots closed) : s.openNodes.Nodup :=
  h.nodup.of_append_right.of_append_left

theorem nodup_closed (h : Valid next ids s roots closed) : closed.Nodup :=
  h.nodup.of_append_right.of_append_right

theorem mem_iff (h : Valid next ids s roots closed) :
    x ∈ ids ↔ x ∈ s.fresh ∨ x ∈ s.openNodes ∨ x ∈ closed := by
  rw [← List.mem_eraseDups, ← h.split.mem_iff, List.mem_append, List.mem_append]

theorem notMem_fresh (h : Valid next ids s roots closed) (hx : x ∈ s.openNodes ∨ x ∈ closed) :
    x ∉ s.fresh :=
  fun hf => (List.nodup_append.mp h.nodup).2.2 x hf x (List.mem_append.mpr hx) rfl

theorem follows (h : Valid next ids s roots closed)
    (hp : s.path = (node, successor :: rest) :: path) : Follows next node successor :=
  (h.rests _ (hp ▸ List.mem_cons_self)).subset List.mem_cons_self

end Valid

theorem perm_cons_without {xs : List String} (h : xs.Nodup) (hx : x ∈ xs) :
    (x :: without xs x).Perm xs := by
  have he : without xs x = xs.erase x := by
    rw [h.erase_eq_filter, without]
    exact List.filter_congr fun y _ => by rw [decide_not, bne, beq_eq_decide]
  rw [he]
  exact (List.perm_cons_erase hx).symm

theorem Valid.enter (h : Valid next ids s roots closed) (hf : node ∈ s.fresh)
    (hl : ∀ a ∈ s.openNodes.head?, Follows next a node)
    (hd : ∀ x ∈ s.fresh, x ≠ node → x ∈ roots') :
    Valid next ids (s.enter v next node) roots' closed where
  split := by
    have hw := perm_cons_without h.nodup.of_append_left hf
    exact List.perm_middle.trans ((hw.append_right _).trans h.split)
  due x hx := hd x (mem_without.mp hx).1 (mem_without.mp hx).2
  linked := List.isChain_cons.mpr ⟨hl, h.linked⟩
  rests e he := by
    rcases List.mem_cons.mp he with rfl | he
    · exact List.suffix_rfl
    · exact h.rests e he

theorem Valid.look (h : Valid next ids s roots closed)
    (hp : s.path = (node, successor :: rest) :: path) (notes : σ) :
    Valid next ids ⟨s.fresh, (node, rest) :: path, notes⟩ roots closed := by
  have ho : s.openNodes = node :: nodesOn path := openNodes_eq hp
  obtain ⟨hs, hd, hl, hr⟩ := h
  rw [ho] at hs hl
  rw [hp] at hr
  refine ⟨hs, hd, hl, fun e hm => ?_⟩
  rcases List.mem_cons.mp hm with rfl | hm
  · exact (List.suffix_cons _ _).trans (hr _ List.mem_cons_self)
  · exact hr e (List.mem_cons_of_mem _ hm)

theorem Valid.close (h : Valid next ids s roots closed) (hp : s.path = (node, []) :: path)
    (notes : σ) : Valid next ids ⟨s.fresh, path, notes⟩ roots (node :: closed) := by
  have ho : s.openNodes = node :: nodesOn path := openNodes_eq hp
  obtain ⟨hs, hd, hl, hr⟩ := h
  rw [ho] at hs hl
  rw [hp] at hr
  have hm : (nodesOn path ++ node :: closed).Perm (node :: nodesOn path ++ closed) :=
    List.perm_middle
  exact ⟨(hm.append_left _).trans hs, hd, hl.tail, fun e hm => hr e (List.mem_cons_of_mem _ hm)⟩

theorem Valid.move (h : Valid next ids s roots closed)
    (m : Move v next s roots closed s' roots' closed') : Valid next ids s' roots' closed' := by
  cases m with
  | root hp hf =>
    refine h.enter hf (fun a ha => ?_) fun x hx hne => ?_
    · rw [openNodes, hp] at ha
      cases ha
    · exact (List.mem_cons.mp (h.due x hx)).resolve_left hne
  | skip hp hf =>
    refine ⟨h.split, fun x hx => ?_, h.linked, h.rests⟩
    exact (List.mem_cons.mp (h.due x hx)).resolve_left fun e => hf (e ▸ hx)
  | close hp => exact h.close hp _
  | descend hp hf =>
    refine (h.look hp s.notes).enter hf (fun a ha => ?_) fun x hx _ => h.due x hx
    obtain rfl : _ = a := Option.some.inj ha
    exact h.follows hp
  | meet hp hf => exact h.look hp _

theorem Valid.finished (h : Valid next ids s [] closed) (hp : s.path = []) :
    (∀ x, x ∉ s.fresh) ∧ ∀ x, x ∈ closed ↔ x ∈ ids := by
  have hf : ∀ x, x ∉ s.fresh := fun x hx => absurd (h.due x hx) List.not_mem_nil
  refine ⟨hf, fun x => ?_⟩
  rw [h.mem_iff, openNodes, hp]
  simp [hf x, nodesOn]

end Traversal

/-! ## The whole search -/

section Search

variable {σ : Type} {v : Visitor σ} {next : String → List String}

theorem valid_start (next : String → List String) (ids : List String) (blank : σ) :
    Traversal.Valid next ids ⟨ids.eraseDups, [], blank⟩ ids [] where
  split := by simp [Traversal.openNodes, nodesOn]
  due x hx := List.mem_eraseDups.mp hx
  linked := List.isChain_nil
  rests e he := absurd he List.not_mem_nil

/-- What holds at the start and is kept by each move holds of the notes at the end. -/
theorem depthFirst_keeps (ids : List String) (blank : σ) {I : Traversal σ → List String → Prop}
    (h₀ : I ⟨ids.eraseDups, [], blank⟩ [])
    (hI : ∀ {s roots closed s' roots' closed'}, Traversal.Valid next ids s roots closed →
      Traversal.Move v next s roots closed s' roots' closed' → I s closed → I s' closed') :
    ∃ s closed, s.notes = depthFirst v next ids blank ∧ s.path = [] ∧
      Traversal.Valid next ids s [] closed ∧ I s closed := by
  obtain ⟨hp, closed, hv, hi⟩ := Traversal.run_keeps
    (I := fun s roots closed => Traversal.Valid next ids s roots closed ∧ I s closed)
    (fun m h => ⟨h.1.move m, hI h.1 m h.2⟩) ⟨valid_start next ids blank, h₀⟩
  exact ⟨_, closed, rfl, hp, hv, hi⟩

end Search

end CodeAtlas
