import CodeAtlas.Proofs.Source.Definitions

/-!
# Walks down a syntax tree

A search comes to some nodes and passes over others, by the mode in which it comes. Such a walk
comes to the nodes in the order of the tree, each once.

* **`Walk.pairwise_visitsAt`**, **`Walk.mem_visitsAt`**: the order and the places of visits.
-/

namespace CodeAtlas

/-- The mode in which a walk goes on from a node to each child, if it does. -/
structure Walk (σ : Type) where
  onward : σ → SyntaxNode → Nat → Option σ

structure Visit (σ : Type) where
  place : List Nat
  node : SyntaxNode
  mode : σ

/-- In the order of the tree a place comes before those inside it and those to its right. -/
def Before (a b : List Nat) : Prop := encloses a b = true ∨ LeftOf a b

namespace SyntaxNode

variable {n c : SyntaxNode} {place : List Nat}

theorem node?_concat (n : SyntaxNode) (place : List Nat) (k : Nat) :
    n.node? (place ++ [k]) = (n.node? place).bind (·.children[k]?) := by
  rw [node?_append]
  congr 1
  funext m
  obtain ⟨label, children⟩ := m
  simp [node?, SyntaxNode.children]

theorem inField?_eq_some_iff {field : String} : n.inField? field = some c ↔
    ∃ i, n.children.findIdx? (·.fills field) = some i ∧ n.children[i]? = some c := by
  rw [inField?, List.find?_eq_some_iff_getElem]
  simp only [List.findIdx?_eq_some_iff_getElem, List.getElem?_eq_some_iff]
  constructor
  · rintro ⟨hfills, i, hi, rfl, hfront⟩
    exact ⟨i, ⟨hi, hfills, fun j hj => by simpa using hfront j hj⟩, hi, rfl⟩
  · rintro ⟨i, ⟨hi, hfills, hfront⟩, -, rfl⟩
    exact ⟨hfills, i, hi, rfl, fun j hj => by simpa using hfront j hj⟩

theorem inField?_eq_none_iff {field : String} : n.inField? field = none ↔
    n.children.findIdx? (·.fills field) = none := by
  simp [inField?]

theorem sizeOf_lt_of_mem (h : c ∈ n.children) : sizeOf c < sizeOf n := by
  obtain ⟨label, children⟩ := n
  have hlt := List.sizeOf_lt_of_mem h
  rw [SyntaxNode.mk.sizeOf_spec]
  exact Nat.lt_of_lt_of_le hlt (Nat.le_add_left _ _)

end SyntaxNode

namespace Walk

variable {σ : Type} (w : Walk σ)

mutual

def visitsAt (place : List Nat) (mode : σ) : SyntaxNode → List (Visit σ)
  | .mk label children =>
    ⟨place, .mk label children, mode⟩ ::
      visitsIn place (w.onward mode (.mk label children)) 0 children

/-- What is come to in the children of the node at a place, from the child `k` on. -/
def visitsIn (place : List Nat) (next : Nat → Option σ) (k : Nat) :
    List SyntaxNode → List (Visit σ)
  | [] => []
  | n :: rest =>
    (match next k with
      | some mode => visitsAt (place ++ [k]) mode n
      | none => []) ++ visitsIn place next (k + 1) rest

end

/-- The node at a place below a node, and the mode in which the walk comes to it. -/
def arrive : σ → SyntaxNode → List Nat → Option (SyntaxNode × σ)
  | mode, n, [] => some (n, mode)
  | mode, n, k :: rest =>
    (w.onward mode n k).bind fun next => n.children[k]?.bind fun c => arrive next c rest

theorem visitsAt_eq (place : List Nat) (mode : σ) (n : SyntaxNode) :
    w.visitsAt place mode n =
      ⟨place, n, mode⟩ :: w.visitsIn place (w.onward mode n) 0 n.children := by
  cases n
  rfl

variable {w} {place rest : List Nat} {mode mode' : σ} {n m : SyntaxNode}

/-! ## Arriving -/

theorem arrive_append (mode : σ) (n : SyntaxNode) (place rest : List Nat) :
    w.arrive mode n (place ++ rest) =
      (w.arrive mode n place).bind fun x => w.arrive x.2 x.1 rest := by
  induction place generalizing mode n with
  | nil => rfl
  | cons k place ih =>
    rw [List.cons_append, arrive, arrive]
    cases w.onward mode n k with
    | none => rfl
    | some next =>
      cases n.children[k]? with
      | none => rfl
      | some c => exact ih next c

theorem arrive_concat {k : Nat} : w.arrive mode n (place ++ [k]) = some (m, mode') ↔
    ∃ p s, w.arrive mode n place = some (p, s) ∧ p.children[k]? = some m ∧
      w.onward s p k = some mode' := by
  rw [arrive_append, Option.bind_eq_some_iff]
  constructor
  · rintro ⟨⟨p, s⟩, hp, h⟩
    obtain ⟨next, hnext, h⟩ := Option.bind_eq_some_iff.mp h
    obtain ⟨c, hc, h⟩ := Option.bind_eq_some_iff.mp h
    obtain ⟨rfl, rfl⟩ := Prod.mk.inj (Option.some.inj h)
    exact ⟨p, s, hp, hc, hnext⟩
  · rintro ⟨p, s, hp, hc, hnext⟩
    exact ⟨(p, s), hp, by simp [arrive, hnext, hc]⟩

theorem node?_of_arrive (h : w.arrive mode n place = some (m, mode')) : n.node? place = some m := by
  induction place generalizing mode n with
  | nil => exact congrArg some (Prod.mk.inj (Option.some.inj h)).1
  | cons k place ih =>
    obtain ⟨label, children⟩ := n
    obtain ⟨next, -, h⟩ := Option.bind_eq_some_iff.mp h
    obtain ⟨c, hc, h⟩ := Option.bind_eq_some_iff.mp h
    exact Option.bind_eq_some_iff.mpr ⟨c, hc, ih h⟩

theorem arrive_append_eq_none (h : w.arrive mode n place = none) (rest : List Nat) :
    w.arrive mode n (place ++ rest) = none := by
  rw [arrive_append, h]
  rfl

/-! ## The visits of a walk -/

mutual

/-- **The visits of a walk** are those of the places that it comes to. -/
theorem mem_visitsAt {v : Visit σ} (place : List Nat) (mode : σ) (n : SyntaxNode) :
    v ∈ w.visitsAt place mode n ↔
      ∃ rest, v.place = place ++ rest ∧ w.arrive mode n rest = some (v.node, v.mode) := by
  match n with
  | .mk label children =>
    rw [visitsAt, List.mem_cons, mem_visitsIn]
    constructor
    · rintro (rfl | ⟨j, c, next, rest, hplace, hc, hnext, h⟩)
      · exact ⟨[], (List.append_nil place).symm, rfl⟩
      · rw [Nat.zero_add] at hplace hnext
        refine ⟨j :: rest, hplace, ?_⟩
        rw [arrive, hnext, Option.bind_some, SyntaxNode.children, hc, Option.bind_some, h]
    · rintro ⟨rest, hplace, h⟩
      cases rest with
      | nil =>
        obtain ⟨hnode, hmode⟩ := Prod.mk.inj (Option.some.inj h)
        rw [List.append_nil] at hplace
        exact Or.inl (by cases v; subst hplace hnode hmode; rfl)
      | cons k rest =>
        obtain ⟨next, hnext, h⟩ := Option.bind_eq_some_iff.mp h
        obtain ⟨c, hc, h⟩ := Option.bind_eq_some_iff.mp h
        rw [← Nat.zero_add k] at hplace hnext
        exact Or.inr ⟨k, c, next, rest, hplace, hc, hnext, h⟩

theorem mem_visitsIn {v : Visit σ} (place : List Nat) (next : Nat → Option σ) (k : Nat)
    (ns : List SyntaxNode) :
    v ∈ w.visitsIn place next k ns ↔
      ∃ j c mode rest, v.place = place ++ (k + j) :: rest ∧ ns[j]? = some c ∧
        next (k + j) = some mode ∧ w.arrive mode c rest = some (v.node, v.mode) := by
  match ns with
  | [] => simp [visitsIn]
  | n :: ns =>
    rw [visitsIn, List.mem_append, mem_visitsIn place next (k + 1) ns]
    constructor
    · rintro (h | ⟨j, c, mode, rest, hplace, hc, hnext, h⟩)
      · cases hmode : next k with
        | none =>
          rw [hmode] at h
          exact absurd h List.not_mem_nil
        | some mode =>
          rw [hmode, mem_visitsAt (place ++ [k]) mode n] at h
          obtain ⟨rest, hplace, h⟩ := h
          rw [List.append_assoc] at hplace
          exact ⟨0, n, mode, rest, hplace, rfl, hmode, h⟩
      · rw [Nat.add_assoc, Nat.add_comm 1 j] at hplace hnext
        exact ⟨j + 1, c, mode, rest, hplace, hc, hnext, h⟩
    · rintro ⟨j, c, mode, rest, hplace, hc, hnext, h⟩
      cases j with
      | zero =>
        obtain rfl := Option.some.inj hc
        rw [Nat.add_zero] at hplace hnext
        rw [hnext, mem_visitsAt (place ++ [k]) mode n]
        exact Or.inl ⟨rest, by rw [hplace, List.append_assoc]; rfl, h⟩
      | succ j =>
        rw [Nat.add_comm j 1, ← Nat.add_assoc] at hplace hnext
        exact Or.inr ⟨j, c, mode, rest, hplace, hc, hnext, h⟩

end

mutual

/-- **The visits of a walk are in the order of places**, so no place is come to twice. -/
theorem pairwise_visitsAt (place : List Nat) (mode : σ) (n : SyntaxNode) :
    (w.visitsAt place mode n).Pairwise fun u v => Before u.place v.place := by
  match n with
  | .mk label children =>
    rw [visitsAt, List.pairwise_cons]
    refine ⟨fun v hv => Or.inl ?_, pairwise_visitsIn _ _ _ children⟩
    obtain ⟨j, -, -, rest, hplace, -⟩ := (mem_visitsIn _ _ _ children).mp hv
    exact encloses_iff.mpr ⟨_, rest, hplace⟩

theorem pairwise_visitsIn (place : List Nat) (next : Nat → Option σ) (k : Nat)
    (ns : List SyntaxNode) :
    (w.visitsIn place next k ns).Pairwise fun u v => Before u.place v.place := by
  match ns with
  | [] => exact .nil
  | n :: ns =>
    rw [visitsIn, List.pairwise_append]
    refine ⟨?_, pairwise_visitsIn _ _ _ ns, fun u hu v hv => Or.inr ?_⟩
    · split
      · exact pairwise_visitsAt _ _ n
      · exact .nil
    · obtain ⟨j, -, -, rest', hplace', -⟩ := (mem_visitsIn _ _ _ ns).mp hv
      split at hu
      · obtain ⟨rest, hplace, -⟩ := (mem_visitsAt _ _ n).mp hu
        rw [List.append_assoc] at hplace
        exact ⟨place, k, k + 1 + j, rest, rest', hplace, hplace', by omega⟩
      · exact absurd hu List.not_mem_nil

end

/-! ## What is picked from the visits -/

section Picking

variable {β : Type} {pick : Visit σ → Option β} {visitOf : β → Visit σ}

def Picks (pick : Visit σ → Option β) (visitOf : β → Visit σ) : Prop :=
  ∀ v b, pick v = some b ↔ v = visitOf b

theorem Picks.mem_iff (h : Picks pick visitOf) {b : β} :
    b ∈ (w.visitsAt [] mode n).filterMap pick ↔
      w.arrive mode n (visitOf b).place = some ((visitOf b).node, (visitOf b).mode) := by
  simp only [List.mem_filterMap, h _ b, exists_eq_right, mem_visitsAt, List.nil_append,
    exists_eq_left']

theorem Picks.pairwise (h : Picks pick visitOf) :
    ((w.visitsAt place mode n).filterMap pick).Pairwise fun b c =>
      Before (visitOf b).place (visitOf c).place := by
  refine (pairwise_visitsAt place mode n).filterMap pick fun u v huv b hb c hc => ?_
  rw [← (h u b).mp hb, ← (h v c).mp hc]
  exact huv

end Picking

/-! ## Going on in one child -/

/-- The mode for the first child that fills a field, and none for the others. -/
def inFirst (field : String) (mode : σ) (n : SyntaxNode) (k : Nat) : Option σ :=
  if n.children.findIdx? (·.fills field) = some k then some mode else none

theorem inFirst_eq_some {field : String} {k : Nat} : inFirst field mode n k = some mode' ↔
    n.children.findIdx? (·.fills field) = some k ∧ mode = mode' := by
  rw [inFirst, Option.ite_none_right_eq_some, Option.some.injEq]

theorem visitsIn_eq_nil {next : Nat → Option σ} {k : Nat} {ns : List SyntaxNode}
    (h : ∀ j, j < ns.length → next (k + j) = none) : w.visitsIn place next k ns = [] := by
  refine List.eq_nil_iff_forall_not_mem.mpr fun v hv => ?_
  obtain ⟨j, c, mode, -, -, hc, hnext, -⟩ := (mem_visitsIn place next k ns).mp hv
  rw [h j (List.getElem?_eq_some_iff.mp hc).1] at hnext
  cases hnext

theorem visitsIn_eq_visitsAt {next : Nat → Option σ} {k i : Nat} {ns : List SyntaxNode}
    {c : SyntaxNode} {mode : σ} (hc : ns[i]? = some c) (hmode : next (k + i) = some mode)
    (hnext : ∀ j, j ≠ i → next (k + j) = none) :
    w.visitsIn place next k ns = w.visitsAt (place ++ [k + i]) mode c := by
  induction ns generalizing k i with
  | nil => cases hc
  | cons n ns ih =>
    rw [visitsIn]
    cases i with
    | zero =>
      obtain rfl := Option.some.inj hc
      rw [Nat.add_zero] at hmode
      have hnil : w.visitsIn place next (k + 1) ns = [] := by
        refine visitsIn_eq_nil fun j _ => ?_
        rw [Nat.add_assoc]
        exact hnext (1 + j) (by omega)
      rw [hmode, hnil, List.append_nil, Nat.add_zero]
    | succ i =>
      have hfront : next k = none := hnext 0 (by omega)
      rw [hfront, List.nil_append, ← Nat.add_assoc, Nat.add_right_comm]
      refine ih hc ?_ fun j hj => ?_
      · rw [Nat.add_right_comm]
        exact hmode
      · rw [Nat.add_right_comm]
        exact hnext (j + 1) (by omega)

theorem visitsIn_first (place : List Nat) (field : String) (mode : σ) (n : SyntaxNode) :
    (n.inField? field = none ∧ w.visitsIn place (inFirst field mode n) 0 n.children = []) ∨
      ∃ i c, n.children[i]? = some c ∧ n.inField? field = some c ∧
        w.visitsIn place (inFirst field mode n) 0 n.children =
          w.visitsAt (place ++ [i]) mode c := by
  cases hfound : n.inField? field with
  | none =>
    refine Or.inl ⟨rfl, visitsIn_eq_nil fun j _ => ?_⟩
    simp [inFirst, SyntaxNode.inField?_eq_none_iff.mp hfound]
  | some c =>
    obtain ⟨i, hi, hc⟩ := SyntaxNode.inField?_eq_some_iff.mp hfound
    refine Or.inr ⟨i, c, hc, rfl, ?_⟩
    rw [visitsIn_eq_visitsAt hc, Nat.zero_add]
    · simp [inFirst, hi]
    · intro j hj
      simp [inFirst, hi, hj.symm]

/-! ## Going everywhere -/

def everywhere : Walk Unit where
  onward _ _ _ := some ()

theorem arrive_everywhere (h : n.node? place = some m) :
    everywhere.arrive () n place = some (m, ()) := by
  induction place generalizing n with
  | nil => rw [arrive, Option.some.inj h]
  | cons k place ih =>
    obtain ⟨label, children⟩ := n
    obtain ⟨c, hc, h⟩ := Option.bind_eq_some_iff.mp h
    exact Option.bind_eq_some_iff.mpr ⟨(), rfl, Option.bind_eq_some_iff.mpr ⟨c, hc, ih h⟩⟩

theorem forall_node? {P : SyntaxNode → Prop} (h : ∀ v ∈ everywhere.visitsAt [] () n, P v.node)
    (hm : n.node? place = some m) : P m :=
  h ⟨place, m, ()⟩ ((mem_visitsAt [] () n).mpr ⟨place, rfl, arrive_everywhere hm⟩)

end Walk

/-! ## Reading outlines -/

/-- A list read off an outline to which imports and definitions add in turn. -/
structure Outline.Reading (α : Type) where
  read : Outline → List α
  ofImports : List ImportLine → List α
  ofDefinition : String → String → SyntaxLabel → List α
  ofImports_nil : ofImports [] = []
  read_addImports : ∀ o imports, read (o.addImports imports) = read o ++ ofImports imports
  read_enter : ∀ o kind name lines scope,
    read (Outline.enter o kind name lines scope) = read o ++ ofDefinition kind name lines

theorem Outline.imports_enter (o : Outline) (kind name : String) (lines : SyntaxLabel)
    (scope : List String) : (o.enter kind name lines scope).imports = o.imports := by
  unfold Outline.enter
  split <;> rfl

namespace Outline.Reading

def imports : Reading ImportLine where
  read o := o.imports
  ofImports imports := imports
  ofDefinition _ _ _ := []
  ofImports_nil := rfl
  read_addImports _ _ := rfl
  read_enter o kind name lines scope := by
    rw [imports_enter, List.append_nil]

/-- The definitions of an outline by kind, name and lines. -/
def definitions : Reading (String × String × Int × Int) where
  read o := o.entities.map fun e => (e.kind, e.name, e.startLine, e.endLine)
  ofImports _ := []
  ofDefinition kind name lines :=
    if name.isEmpty then [] else [(kind, name, lines.startLine, lines.endLine)]
  ofImports_nil := rfl
  read_addImports _ _ := (List.append_nil _).symm
  read_enter o kind name lines scope := by
    unfold Outline.enter
    split <;> simp

end Outline.Reading

end CodeAtlas
