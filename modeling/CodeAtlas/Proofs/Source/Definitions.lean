import CodeAtlas.Proofs.Files.PlainFolder
import CodeAtlas.Proofs.Source.Nesting

/-!
# The definitions of a syntax tree

The search enters exactly the definitions that it comes to, in the order of the tree, so a
definition is around another just if its node is above the other's.

* **`Workspace.outline_nests`**: outlines follow the nesting of the source.
-/

namespace CodeAtlas

namespace SyntaxNode

def node? : SyntaxNode → List Nat → Option SyntaxNode
  | n, [] => some n
  | .mk _ children, k :: rest => children[k]?.bind (node? · rest)

/-- Nodes cover the lines of their children, and these come one after the other. -/
inductive Spanned : SyntaxNode → Prop
  | mk {label : SyntaxLabel} {children : List SyntaxNode} (span : label.startLine ≤ label.endLine)
      (within : ∀ c ∈ children,
        label.startLine ≤ c.label.startLine ∧ c.label.endLine ≤ label.endLine)
      (apart : children.Pairwise fun a b => a.label.endLine ≤ b.label.startLine)
      (below : ∀ c ∈ children, Spanned c) : Spanned (.mk label children)

theorem node?_append (n : SyntaxNode) (place rest : List Nat) :
    n.node? (place ++ rest) = (n.node? place).bind (node? · rest) := by
  induction place generalizing n with
  | nil => rfl
  | cons k place ih =>
    obtain ⟨label, children⟩ := n
    rw [List.cons_append, node?, node?]
    cases children[k]? with
    | none => rfl
    | some c => exact ih c

namespace Spanned

variable {n m m' : SyntaxNode} {place place' : List Nat}

theorem node? (h : n.Spanned) (hm : n.node? place = some m) :
    n.label.startLine ≤ m.label.startLine ∧ m.label.startLine ≤ m.label.endLine ∧
      m.label.endLine ≤ n.label.endLine ∧ m.Spanned := by
  induction place generalizing n with
  | nil =>
    obtain rfl := Option.some.inj hm
    obtain ⟨span, -, -, -⟩ := id h
    exact ⟨Nat.le_refl _, span, Nat.le_refl _, h⟩
  | cons k place ih =>
    obtain ⟨span, within, -, below⟩ := h
    obtain ⟨c, hc, hm⟩ := Option.bind_eq_some_iff.mp hm
    have hmem := List.mem_of_getElem? hc
    obtain ⟨h₁, h₂, h₃, h₄⟩ := ih (below c hmem) hm
    obtain ⟨hstart, hend⟩ := within c hmem
    exact ⟨Nat.le_trans hstart h₁, h₂, Nat.le_trans h₃ hend, h₄⟩

theorem encloses (h : n.Spanned) (hm : n.node? place = some m) (hm' : n.node? place' = some m')
    (hplace : encloses place place' = true) :
    m.label.startLine ≤ m'.label.startLine ∧ m'.label.endLine ≤ m.label.endLine := by
  obtain ⟨k, rest, rfl⟩ := encloses_iff.mp hplace
  rw [node?_append, hm] at hm'
  obtain ⟨h₁, -, h₃, -⟩ := (h.node? hm).2.2.2.node? hm'
  exact ⟨h₁, h₃⟩

theorem leftOf (h : n.Spanned) (hm : n.node? place = some m) (hm' : n.node? place' = some m')
    (hplace : LeftOf place place') : m.label.endLine ≤ m'.label.startLine := by
  obtain ⟨w, i, j, rest, rest', rfl, rfl, hlt⟩ := hplace
  rw [node?_append] at hm hm'
  obtain ⟨top, htop, hm⟩ := Option.bind_eq_some_iff.mp hm
  rw [htop, Option.bind_some] at hm'
  obtain ⟨-, -, apart, below⟩ := (h.node? htop).2.2.2
  obtain ⟨c, hc, hm⟩ := Option.bind_eq_some_iff.mp hm
  obtain ⟨c', hc', hm'⟩ := Option.bind_eq_some_iff.mp hm'
  have hbefore : c.label.endLine ≤ c'.label.startLine := by
    obtain ⟨hi, rfl⟩ := List.getElem?_eq_some_iff.mp hc
    obtain ⟨hj, rfl⟩ := List.getElem?_eq_some_iff.mp hc'
    exact List.pairwise_iff_getElem.mp apart i j hi hj hlt
  have hleft := (below c (List.mem_of_getElem? hc)).node? hm
  have hright := (below c' (List.mem_of_getElem? hc')).node? hm'
  omega

end Spanned

end SyntaxNode

/-! ## Definitions at places of a tree -/

namespace Definition

theorem flatAll_append (ds ds' : List Definition) :
    flatAll (ds ++ ds') = flatAll ds ++ flatAll ds' := by
  induction ds with
  | nil => rfl
  | cons d ds ih => rw [List.cons_append, flatAll, flatAll, ih, List.append_assoc]

theorem flatAll_singleton (d : Definition) : flatAll [d] = d :: flatAll d.inner := by
  rw [flatAll, flatAll, List.append_nil, flat_eq]

theorem Laid.append {ds ds' : List Definition} (h : Laid ds) (h' : Laid ds')
    (hleft : ∀ x ∈ flatAll ds, ∀ y ∈ flatAll ds', LeftOf x.place y.place) : Laid (ds ++ ds') := by
  induction h with
  | nil => exact h'
  | @cons d rest inside inner apart after _ ihafter =>
    rw [flatAll, List.forall_mem_append] at hleft
    rw [List.cons_append]
    refine .cons inside inner (fun x hx y hy => ?_) (ihafter hleft.2)
    rw [flatAll_append] at hy
    rcases List.mem_append.mp hy with hy | hy
    · exact apart x hx y hy
    · exact hleft.1 x hx y hy

end Definition

open Definition

/-- The definitions stand in the node that is at the place, nested as their places are. -/
structure FoundAt (place : List Nat) (n : SyntaxNode) (ds : List Definition) : Prop where
  laid : Laid ds
  kind : ∀ d ∈ flatAll ds, ':' ∉ d.kind.toList
  placed : ∀ d ∈ flatAll ds, ∃ rest m, d.place = place ++ rest ∧ n.node? rest = some m ∧
    m.label = d.lines

/-- The definitions stand in the children of the node at the place, from `k` on. -/
structure FoundIn (place : List Nat) (k : Nat) (ns : List SyntaxNode) (ds : List Definition) :
    Prop where
  laid : Laid ds
  kind : ∀ d ∈ flatAll ds, ':' ∉ d.kind.toList
  placed : ∀ d ∈ flatAll ds, ∃ j c rest m, d.place = place ++ (k + j) :: rest ∧ ns[j]? = some c ∧
    c.node? rest = some m ∧ m.label = d.lines

section Found

variable {place : List Nat} {k : Nat} {n : SyntaxNode} {ns : List SyntaxNode}
  {ds ds' : List Definition} {label : SyntaxLabel}

theorem FoundAt.nil : FoundAt place n [] :=
  ⟨.nil, fun _ hd => absurd hd List.not_mem_nil, fun _ hd => absurd hd List.not_mem_nil⟩

theorem FoundIn.nil : FoundIn place k ns [] :=
  ⟨.nil, fun _ hd => absurd hd List.not_mem_nil, fun _ hd => absurd hd List.not_mem_nil⟩

theorem FoundIn.cons (h : FoundAt (place ++ [k]) n ds) (h' : FoundIn place (k + 1) ns ds') :
    FoundIn place k (n :: ns) (ds ++ ds') where
  laid := by
    refine h.laid.append h'.laid fun x hx y hy => ?_
    obtain ⟨rest, -, hplace, -⟩ := h.placed x hx
    obtain ⟨j, -, rest', -, hplace', -⟩ := h'.placed y hy
    rw [List.append_assoc] at hplace
    exact ⟨place, k, k + 1 + j, rest, rest', hplace, hplace', by omega⟩
  kind := by
    rw [flatAll_append]
    exact List.forall_mem_append.mpr ⟨h.kind, h'.kind⟩
  placed := by
    rw [flatAll_append]
    refine List.forall_mem_append.mpr ⟨fun d hd => ?_, fun d hd => ?_⟩
    · obtain ⟨rest, m, hplace, hm, hlines⟩ := h.placed d hd
      rw [List.append_assoc] at hplace
      exact ⟨0, n, rest, m, hplace, rfl, hm, hlines⟩
    · obtain ⟨j, c, rest, m, hplace, hc, hm, hlines⟩ := h'.placed d hd
      rw [Nat.add_assoc, Nat.add_comm 1 j] at hplace
      exact ⟨j + 1, c, rest, m, hplace, hc, hm, hlines⟩

theorem FoundIn.first (h : FoundAt (place ++ [k]) n ds) : FoundIn place k (n :: ns) ds := by
  have hcons : FoundIn place k (n :: ns) (ds ++ []) := .cons h .nil
  rwa [List.append_nil] at hcons

theorem FoundIn.skip (h : FoundIn place (k + 1) ns ds) : FoundIn place k (n :: ns) ds :=
  .cons .nil h

theorem FoundAt.of_children (h : FoundIn place 0 ns ds) : FoundAt place (.mk label ns) ds where
  laid := h.laid
  kind := h.kind
  placed d hd := by
    obtain ⟨j, c, rest, m, hplace, hc, hm, hlines⟩ := h.placed d hd
    refine ⟨j :: rest, m, by rw [hplace, Nat.zero_add], ?_, hlines⟩
    rw [SyntaxNode.node?, hc]
    exact hm

theorem FoundAt.definition {kind name : String} (hkind : ':' ∉ kind.toList)
    (h : FoundIn place 0 ns ds) :
    FoundAt place (.mk label ns) [.mk kind name place label ds] where
  laid := by
    refine .cons (fun x hx => ?_) h.laid (fun _ _ _ hy => absurd hy List.not_mem_nil) .nil
    obtain ⟨j, -, rest, -, hplace, -⟩ := h.placed x hx
    exact encloses_iff.mpr ⟨_, rest, hplace⟩
  kind := by
    rw [flatAll_singleton]
    exact List.forall_mem_cons.mpr ⟨hkind, h.kind⟩
  placed := by
    rw [flatAll_singleton]
    refine List.forall_mem_cons.mpr ⟨?_, (FoundAt.of_children h).placed⟩
    exact ⟨[], .mk label ns, (List.append_nil place).symm, rfl, rfl⟩

namespace FoundAt

variable {root : SyntaxNode} {x y : Definition}

theorem exists_node? (h : FoundAt [] root ds) (hx : x ∈ flatAll ds) :
    ∃ n, root.node? x.place = some n ∧ n.label = x.lines := by
  obtain ⟨rest, n, hplace, hn, hlines⟩ := h.placed x hx
  exact ⟨n, hplace ▸ hn, hlines⟩

theorem lines_of_encloses (h : FoundAt [] root ds) (hspanned : root.Spanned) (hx : x ∈ flatAll ds)
    (hy : y ∈ flatAll ds) (hencloses : encloses x.place y.place = true) :
    x.lines.startLine ≤ y.lines.startLine ∧ y.lines.endLine ≤ x.lines.endLine := by
  obtain ⟨n, hn, hlines⟩ := h.exists_node? hx
  obtain ⟨m, hm, hlines'⟩ := h.exists_node? hy
  rw [← hlines, ← hlines']
  exact hspanned.encloses hn hm hencloses

theorem startLine_le (h : FoundAt [] root ds) (hspanned : root.Spanned) (hx : x ∈ flatAll ds)
    (hy : y ∈ flatAll ds)
    (hor : encloses x.place y.place = true ∨ LeftOf x.place y.place) :
    x.lines.startLine ≤ y.lines.startLine := by
  rcases hor with hencloses | hleft
  · exact (h.lines_of_encloses hspanned hx hy hencloses).1
  · obtain ⟨n, hn, hlines⟩ := h.exists_node? hx
    obtain ⟨m, hm, hlines'⟩ := h.exists_node? hy
    rw [← hlines, ← hlines']
    exact Nat.le_trans (hspanned.node? hn).2.1 (hspanned.leftOf hn hm hleft)

end FoundAt

end Found

/-! ## The definitions of Python files -/

namespace Python

mutual

def definitionsAt (inClass : Bool) (place : List Nat) : SyntaxNode → List Definition
  | .mk label children =>
    match definition? { inClass := inClass } (.mk label children) with
    | some (kind, name, inside) =>
      [.mk kind name place label (definitionsInBody inside.inClass place 0 children)]
    | none =>
      if label.kind == "decorated_definition" then
        decoratedDefinitions inClass place label 0 children
      else if compound.contains label.kind then definitionsIn inClass place 0 children
      else []

def definitionsIn (inClass : Bool) (place : List Nat) (k : Nat) :
    List SyntaxNode → List Definition
  | [] => []
  | n :: rest =>
    definitionsAt inClass (place ++ [k]) n ++ definitionsIn inClass place (k + 1) rest

def definitionsInBody (inClass : Bool) (place : List Nat) (k : Nat) :
    List SyntaxNode → List Definition
  | [] => []
  | n :: rest =>
    if n.fills "body" then definitionsInside inClass (place ++ [k]) n
    else definitionsInBody inClass place (k + 1) rest

def definitionsInside (inClass : Bool) (place : List Nat) : SyntaxNode → List Definition
  | .mk _ children => definitionsIn inClass place 0 children

def decoratedDefinitions (inClass : Bool) (place : List Nat) (lines : SyntaxLabel) (k : Nat) :
    List SyntaxNode → List Definition
  | [] => []
  | n :: rest =>
    if n.fills "definition" then
      match definition? { inClass := inClass } n with
      | some (kind, name, inside) =>
        [.mk kind name place lines (definitionsInBodyOf inside.inClass (place ++ [k]) n)]
      | none => []
    else decoratedDefinitions inClass place lines (k + 1) rest

def definitionsInBodyOf (inClass : Bool) (place : List Nat) : SyntaxNode → List Definition
  | .mk _ children => definitionsInBody inClass place 0 children

end

theorem definition?_eq (here : Nesting) (n : SyntaxNode) :
    definition? here n = (definition? { inClass := here.inClass } n).map fun x =>
      (x.1, x.2.1, here.inside x.2.1 x.2.2.inClass) := by
  unfold definition?
  dsimp only
  split
  · rfl
  · split
    · rfl
    · rfl

theorem colon_notMem_kind {here inside : Nesting} {n : SyntaxNode} {kind name : String}
    (h : definition? here n = some (kind, name, inside)) : ':' ∉ kind.toList := by
  unfold definition? at h
  dsimp only at h
  split at h
  · cases h
    decide
  · split at h
    · cases h
      split <;> decide
    · cases h

mutual

theorem foundAt_definitionsAt (inClass : Bool) (place : List Nat) (n : SyntaxNode) :
    FoundAt place n (definitionsAt inClass place n) := by
  match n with
  | .mk label children =>
    rw [definitionsAt]
    split
    · rename_i hdefinition
      exact .definition (colon_notMem_kind hdefinition) (foundIn_definitionsInBody _ _ _ _)
    · split
      · rcases decoratedDefinitions_cases inClass place label 0 children with
          h | ⟨kind, name, inner, hkind, hinner, h⟩
        · rw [h]
          exact .nil
        · rw [h]
          exact .definition hkind hinner
      · split
        · exact .of_children (foundIn_definitionsIn _ _ _ _)
        · exact .nil

theorem foundIn_definitionsIn (inClass : Bool) (place : List Nat) (k : Nat)
    (ns : List SyntaxNode) : FoundIn place k ns (definitionsIn inClass place k ns) := by
  match ns with
  | [] => exact .nil
  | n :: rest =>
    rw [definitionsIn]
    exact .cons (foundAt_definitionsAt _ _ n) (foundIn_definitionsIn _ _ _ rest)

theorem foundIn_definitionsInBody (inClass : Bool) (place : List Nat) (k : Nat)
    (ns : List SyntaxNode) : FoundIn place k ns (definitionsInBody inClass place k ns) := by
  match ns with
  | [] => exact .nil
  | n :: rest =>
    rw [definitionsInBody]
    split
    · exact .first (foundAt_definitionsInside _ _ n)
    · exact .skip (foundIn_definitionsInBody _ _ _ rest)

theorem foundAt_definitionsInside (inClass : Bool) (place : List Nat) (n : SyntaxNode) :
    FoundAt place n (definitionsInside inClass place n) := by
  match n with
  | .mk label children => exact .of_children (foundIn_definitionsIn _ _ _ _)

theorem decoratedDefinitions_cases (inClass : Bool) (place : List Nat) (lines : SyntaxLabel)
    (k : Nat) (ns : List SyntaxNode) :
    decoratedDefinitions inClass place lines k ns = [] ∨
      ∃ kind name inner, ':' ∉ kind.toList ∧ FoundIn place k ns inner ∧
        decoratedDefinitions inClass place lines k ns = [.mk kind name place lines inner] := by
  match ns with
  | [] => exact Or.inl rfl
  | n :: rest =>
    rw [decoratedDefinitions]
    split
    · split
      · rename_i hdefinition
        exact Or.inr ⟨_, _, _, colon_notMem_kind hdefinition,
          .first (foundAt_definitionsInBodyOf _ _ n), rfl⟩
      · exact Or.inl rfl
    · rcases decoratedDefinitions_cases inClass place lines (k + 1) rest with
        h | ⟨kind, name, inner, hkind, hinner, h⟩
      · exact Or.inl h
      · exact Or.inr ⟨kind, name, inner, hkind, .skip hinner, h⟩

theorem foundAt_definitionsInBodyOf (inClass : Bool) (place : List Nat) (n : SyntaxNode) :
    FoundAt place n (definitionsInBodyOf inClass place n) := by
  match n with
  | .mk label children => exact .of_children (foundIn_definitionsInBody _ _ _ _)

end

mutual

/-- **A statement enters the definitions in it.** -/
theorem entities_enterStatement (here : Nesting) (place : List Nat) (n : SyntaxNode) (o : Outline) :
    (enterStatement here n o).entities =
      (enterAll here.scope (definitionsAt here.inClass place n) o).entities := by
  match n with
  | .mk label children =>
    rw [enterStatement, definitionsAt, definition?_eq]
    cases definition? { inClass := here.inClass } (.mk label children) with
    | some x => exact entities_enterBody _ place 0 children _
    | none =>
      dsimp only [Option.map_none]
      split
      · exact entities_enterDecorated here place label 0 children o
      · split
        · rename_i himport
          rw [eq_of_beq himport]
          rfl
        · split
          · rename_i himport
            rw [eq_of_beq himport]
            rfl
          · split
            · exact entities_enterStatements here place 0 children o
            · rfl

theorem entities_enterStatements (here : Nesting) (place : List Nat) (k : Nat)
    (ns : List SyntaxNode) (o : Outline) :
    (enterStatements here ns o).entities =
      (enterAll here.scope (definitionsIn here.inClass place k ns) o).entities := by
  match ns with
  | [] => rfl
  | n :: rest =>
    rw [enterStatements, definitionsIn, enterAll_append,
      entities_enterStatements here place (k + 1) rest]
    exact entities_enterAll_congr _ _ (entities_enterStatement here (place ++ [k]) n o)

theorem entities_enterBody (here : Nesting) (place : List Nat) (k : Nat)
    (ns : List SyntaxNode) (o : Outline) :
    (enterBody here ns o).entities =
      (enterAll here.scope (definitionsInBody here.inClass place k ns) o).entities := by
  match ns with
  | [] => rfl
  | n :: rest =>
    rw [enterBody, definitionsInBody]
    split
    · exact entities_enterInside here (place ++ [k]) n o
    · exact entities_enterBody here place (k + 1) rest o

theorem entities_enterInside (here : Nesting) (place : List Nat) (n : SyntaxNode) (o : Outline) :
    (enterInside here n o).entities =
      (enterAll here.scope (definitionsInside here.inClass place n) o).entities := by
  match n with
  | .mk label children => exact entities_enterStatements here place 0 children o

theorem entities_enterDecorated (here : Nesting) (place : List Nat) (lines : SyntaxLabel) (k : Nat)
    (ns : List SyntaxNode) (o : Outline) :
    (enterDecorated here lines ns o).entities =
      (enterAll here.scope (decoratedDefinitions here.inClass place lines k ns) o).entities := by
  match ns with
  | [] => rfl
  | n :: rest =>
    rw [enterDecorated, decoratedDefinitions, definition?_eq]
    split
    · cases definition? { inClass := here.inClass } n with
      | some x => exact entities_enterBodyOf _ (place ++ [k]) n _
      | none => rfl
    · exact entities_enterDecorated here place lines (k + 1) rest o

theorem entities_enterBodyOf (here : Nesting) (place : List Nat) (n : SyntaxNode) (o : Outline) :
    (enterBodyOf here n o).entities =
      (enterAll here.scope (definitionsInBodyOf here.inClass place n) o).entities := by
  match n with
  | .mk label children => exact entities_enterBody here place 0 children o

end

end Python

/-! ## The definitions of scripts -/

namespace Script

mutual

def definitionsAt (inClass : Bool) (place : List Nat) : SyntaxNode → List Definition
  | .mk label children =>
    match declared? { inClass := inClass } (.mk label children) with
    | some (kind, name, .stop) => [.mk kind name place label []]
    | some (kind, name, .field field) =>
      [.mk kind name place label (definitionsInField field (kind == "class") place 0 children)]
    | some (kind, name, .children) =>
      [.mk kind name place label (definitionsIn (kind == "class") place 0 children)]
    | none =>
      if label.kind == "import_statement" then [] else definitionsIn inClass place 0 children

def definitionsIn (inClass : Bool) (place : List Nat) (k : Nat) :
    List SyntaxNode → List Definition
  | [] => []
  | n :: rest =>
    definitionsAt inClass (place ++ [k]) n ++ definitionsIn inClass place (k + 1) rest

def definitionsInField (field : String) (inClass : Bool) (place : List Nat) (k : Nat) :
    List SyntaxNode → List Definition
  | [] => []
  | n :: rest =>
    if n.fills field then definitionsInside inClass (place ++ [k]) n
    else definitionsInField field inClass place (k + 1) rest

def definitionsInside (inClass : Bool) (place : List Nat) : SyntaxNode → List Definition
  | .mk _ children => definitionsIn inClass place 0 children

end

theorem declared?_eq (here : Nesting) (n : SyntaxNode) :
    declared? here n = declared? { inClass := here.inClass } n := rfl

theorem colon_notMem_kind {here : Nesting} {n : SyntaxNode} {kind name : String} {onward : Onward}
    (h : declared? here n = some (kind, name, onward)) : ':' ∉ kind.toList := by
  unfold declared? at h
  dsimp only at h
  split_ifs at h <;> cases h <;> decide

mutual

theorem foundAt_definitionsAt (inClass : Bool) (place : List Nat) (n : SyntaxNode) :
    FoundAt place n (definitionsAt inClass place n) := by
  match n with
  | .mk label children =>
    rw [definitionsAt]
    split
    · rename_i hdeclared
      exact .definition (colon_notMem_kind hdeclared) .nil
    · rename_i hdeclared
      exact .definition (colon_notMem_kind hdeclared) (foundIn_definitionsInField _ _ _ _ _)
    · rename_i hdeclared
      exact .definition (colon_notMem_kind hdeclared) (foundIn_definitionsIn _ _ _ _)
    · split
      · exact .nil
      · exact .of_children (foundIn_definitionsIn _ _ _ _)

theorem foundIn_definitionsIn (inClass : Bool) (place : List Nat) (k : Nat)
    (ns : List SyntaxNode) : FoundIn place k ns (definitionsIn inClass place k ns) := by
  match ns with
  | [] => exact .nil
  | n :: rest =>
    rw [definitionsIn]
    exact .cons (foundAt_definitionsAt _ _ n) (foundIn_definitionsIn _ _ _ rest)

theorem foundIn_definitionsInField (field : String) (inClass : Bool) (place : List Nat) (k : Nat)
    (ns : List SyntaxNode) : FoundIn place k ns (definitionsInField field inClass place k ns) := by
  match ns with
  | [] => exact .nil
  | n :: rest =>
    rw [definitionsInField]
    split
    · exact .first (foundAt_definitionsInside _ _ n)
    · exact .skip (foundIn_definitionsInField _ _ _ _ rest)

theorem foundAt_definitionsInside (inClass : Bool) (place : List Nat) (n : SyntaxNode) :
    FoundAt place n (definitionsInside inClass place n) := by
  match n with
  | .mk label children => exact .of_children (foundIn_definitionsIn _ _ _ _)

end

theorem entities_enterOwn (n : SyntaxNode) (o : Outline) :
    (enterOwn n o).entities = o.entities := by
  unfold enterOwn
  split_ifs <;> rfl

mutual

/-- **A node enters the definitions in it.** -/
theorem entities_enterNode (here : Nesting) (place : List Nat) (n : SyntaxNode) (o : Outline) :
    (enterNode here n o).entities =
      (enterAll here.scope (definitionsAt here.inClass place n) o).entities := by
  match n with
  | .mk label children =>
    rw [enterNode, definitionsAt, declared?_eq]
    cases declared? { inClass := here.inClass } (.mk label children) with
    | some x =>
      obtain ⟨kind, name, onward⟩ := x
      cases onward with
      | stop => rfl
      | field field => exact entities_enterField field _ place 0 children _
      | children => exact entities_enterNodes _ place 0 children _
    | none =>
      dsimp only
      split
      · exact entities_enterOwn _ o
      · rw [entities_enterNodes here place 0 children]
        exact entities_enterAll_congr _ _ (entities_enterOwn _ o)

theorem entities_enterNodes (here : Nesting) (place : List Nat) (k : Nat)
    (ns : List SyntaxNode) (o : Outline) :
    (enterNodes here ns o).entities =
      (enterAll here.scope (definitionsIn here.inClass place k ns) o).entities := by
  match ns with
  | [] => rfl
  | n :: rest =>
    rw [enterNodes, definitionsIn, enterAll_append, entities_enterNodes here place (k + 1) rest]
    exact entities_enterAll_congr _ _ (entities_enterNode here (place ++ [k]) n o)

theorem entities_enterField (field : String) (here : Nesting) (place : List Nat) (k : Nat)
    (ns : List SyntaxNode) (o : Outline) :
    (enterField field here ns o).entities =
      (enterAll here.scope (definitionsInField field here.inClass place k ns) o).entities := by
  match ns with
  | [] => rfl
  | n :: rest =>
    rw [enterField, definitionsInField]
    split
    · exact entities_enterInside here (place ++ [k]) n o
    · exact entities_enterField field here place (k + 1) rest o

theorem entities_enterInside (here : Nesting) (place : List Nat) (n : SyntaxNode) (o : Outline) :
    (enterInside here n o).entities =
      (enterAll here.scope (definitionsInside here.inClass place n) o).entities := by
  match n with
  | .mk label children => exact entities_enterNodes here place 0 children o

end

end Script

/-! ## Outlines -/

/-- The definitions of a tree that an outline lists, each with those inside it. -/
def definitionsOf (language : String) (root : SyntaxNode) : List Definition :=
  if language == "python" then Python.definitionsInside false [] root
  else Script.definitionsInside false [] root

theorem foundAt_definitionsOf (language : String) (root : SyntaxNode) :
    FoundAt [] root (definitionsOf language root) := by
  unfold definitionsOf
  split
  · exact Python.foundAt_definitionsInside false [] root
  · exact Script.foundAt_definitionsInside false [] root

theorem entities_outlineOf (path language : String) (root : SyntaxNode)
    (hnames : ∀ d ∈ flatAll (definitionsOf language root), d.name ≠ "" ∧ ':' ∉ d.name.toList) :
    (if language == "python" then Python.outlineOf path root
      else Script.outlineOf path language root).entities =
        (recordsAll [] none (definitionsOf language root)).map (·.2) := by
  have hnamed : ∀ d ∈ flatAll (definitionsOf language root), d.Named := fun d hd =>
    ⟨(foundAt_definitionsOf language root).kind d hd, (hnames d hd).2, (hnames d hd).1⟩
  have hrecords := fun o : Outline =>
    entities_enterAll _ (fun _ h => absurd h List.not_mem_nil) hnamed o
  unfold definitionsOf at hrecords ⊢
  split
  · rename_i hpython
    rw [if_pos hpython] at hrecords
    exact (Python.entities_enterInside {} [] root _).trans (hrecords _)
  · rename_i hpython
    rw [if_neg hpython] at hrecords
    exact (Script.entities_enterInside {} [] root _).trans (hrecords _)

theorem Workspace.outline_of_tree {w : Workspace} {given language : String} {f : SourceFile}
    {root : SyntaxNode} (hlanguage : languageOf? (Path.ofText given).extension = some language)
    (hfile : w.file (Path.ofText given) = .ok f) (htree : f.reading = .tree root) :
    w.outline given = .ok (some (if language == "python" then
      Python.outlineOf (Path.ofText given).text root
      else Script.outlineOf (Path.ofText given).text language root)) := by
  unfold Workspace.outline
  dsimp only
  rw [hlanguage]
  dsimp only
  rw [hfile]
  dsimp only
  rw [htree]

/-- **Outlines follow the nesting of the source.** The definitions are listed in the order of the
tree, the id of each holds the names of those around it, and its parent is the innermost. If lines
nest in the tree, entries cover lines of their parents. -/
theorem Workspace.outline_nests {w : Workspace} {given language : String} {f : SourceFile}
    {root : SyntaxNode} (hlanguage : languageOf? (Path.ofText given).extension = some language)
    (hfile : w.file (Path.ofText given) = .ok f) (htree : f.reading = .tree root)
    (hnames : ∀ d ∈ flatAll (definitionsOf language root), d.name ≠ "" ∧ ':' ∉ d.name.toList) :
    ∃ o, w.outline given = .ok (some o) ∧
      o.entities.length = (flatAll (definitionsOf language root)).length ∧
      ∀ front d e back,
        (flatAll (definitionsOf language root)).zip o.entities = front ++ (d, e) :: back →
        (∃ n, root.node? d.place = some n ∧ n.label = d.lines) ∧
        d.RecordedBy e front ∧
        (d.around front).Pairwise (fun x y => encloses x.1.place y.1.place = true) ∧
        (∀ x ∈ back, encloses x.1.place d.place = false) ∧
        (root.Spanned →
          (∀ x ∈ back, e.startLine ≤ x.2.startLine) ∧
          ∀ x ∈ d.around front, x.2.startLine ≤ e.startLine ∧ e.endLine ≤ x.2.endLine) := by
  refine ⟨_, outline_of_tree hlanguage hfile htree, ?_⟩
  rw [entities_outlineOf _ language root hnames]
  have hfound := foundAt_definitionsOf language root
  have hfst := map_fst_recordsAll (definitionsOf language root) [] none
  refine ⟨by rw [List.length_map, ← hfst, List.length_map], fun front d e back hsplit => ?_⟩
  rw [← hfst, ← List.unzip_fst, ← List.unzip_snd, List.zip_unzip] at hsplit
  have hchained : Chained [] (recordsAll [] none (definitionsOf language root)) :=
    hfound.laid.chained rfl rfl fun _ _ => rfl
  have hpairs := hfound.laid.pairwise_recordsAll [] none
  have hmem : ∀ x ∈ front ++ (d, e) :: back, x.1 ∈ flatAll (definitionsOf language root) ∧
      x.2.startLine = x.1.lines.startLine ∧ x.2.endLine = x.1.lines.endLine := by
    intro x hx
    rw [← hsplit] at hx
    obtain ⟨_, hrecorded⟩ := hchained.exists_recordedBy hx
    exact ⟨hfst ▸ List.mem_map_of_mem hx, hrecorded.startLine, hrecorded.endLine⟩
  rw [hsplit] at hchained hpairs
  obtain ⟨hfront, hback, -⟩ := List.pairwise_append.mp hpairs
  have hlater := (List.pairwise_cons.mp hback).1
  obtain ⟨hd, hstart, hend⟩ : d ∈ flatAll (definitionsOf language root) ∧
      e.startLine = d.lines.startLine ∧ e.endLine = d.lines.endLine := hmem (d, e) (by simp)
  refine ⟨hfound.exists_node? hd, recordedBy_of_chained hchained, Laid.pairwise_around hfront d,
    fun x hx => ?_, fun hspanned => ⟨fun x hx => ?_, fun x hx => ?_⟩⟩
  · rcases hlater x hx with h | h
    · exact encloses_asymm h
    · exact h.encloses_eq_false_left
  · obtain ⟨hx', hstart', -⟩ := hmem x (by simp [hx])
    have hle := hfound.startLine_le hspanned hd hx' (hlater x hx)
    omega
  · obtain ⟨hx, hencloses⟩ := List.mem_filter.mp hx
    obtain ⟨hx', hstart', hend'⟩ := hmem x (by simp [hx])
    have hle := hfound.lines_of_encloses hspanned hx' hd hencloses
    omega

namespace Redefined

def nodeOf (kind field text : String) (startLine endLine : Nat) (children : List SyntaxNode) :
    SyntaxNode :=
  .mk ⟨kind, some field, true, text, startLine, endLine⟩ children

def method (line : Nat) : SyntaxNode :=
  nodeOf "function_definition" "" "" line line [nodeOf "identifier" "name" "f" line line []]

/-- The class `A` with the method `f` on its last line. -/
def classOn (line : Nat) : SyntaxNode :=
  nodeOf "class_definition" "definition" "" line (line + 1)
    [nodeOf "identifier" "name" "A" line line [],
      nodeOf "block" "body" "" (line + 1) (line + 1) [method (line + 1)]]

/-- The class is defined and then again, with a decorator. -/
def root : SyntaxNode :=
  nodeOf "module" "" "" 1 5
    [classOn 1, nodeOf "decorated_definition" "" "" 3 5
      [nodeOf "decorator" "" "" 3 3 [], classOn 4]]

def folder : PlainFolder where
  files := [("a.py", ⟨none, .tree root⟩)]

theorem spanned_leaf (kind field text : String) (line : Nat) :
    (nodeOf kind field text line line []).Spanned :=
  .mk (Nat.le_refl _) (List.forall_mem_nil _) .nil (List.forall_mem_nil _)

theorem spanned_classOn (line : Nat) : (classOn line).Spanned := by
  have hmethod : (method (line + 1)).Spanned :=
    .mk (Nat.le_refl _) (by simp [nodeOf, SyntaxNode.label]) (List.pairwise_singleton _ _)
      (List.forall_mem_singleton.mpr (spanned_leaf _ _ _ _))
  have hblock : (nodeOf "block" "body" "" (line + 1) (line + 1) [method (line + 1)]).Spanned :=
    .mk (Nat.le_refl _) (by simp [method, nodeOf, SyntaxNode.label]) (List.pairwise_singleton _ _)
      (List.forall_mem_singleton.mpr hmethod)
  refine .mk (Nat.le_succ _) (by simp [nodeOf, SyntaxNode.label])
    (by simp [nodeOf, SyntaxNode.label]) ?_
  exact List.forall_mem_cons.mpr ⟨spanned_leaf _ _ _ _, List.forall_mem_singleton.mpr hblock⟩

theorem spanned_root : root.Spanned := by
  have hdecorated : (nodeOf "decorated_definition" "" "" 3 5
      [nodeOf "decorator" "" "" 3 3 [], classOn 4]).Spanned :=
    .mk (by decide) (by decide) (by decide)
      (List.forall_mem_cons.mpr
        ⟨spanned_leaf _ _ _ _, List.forall_mem_singleton.mpr (spanned_classOn 4)⟩)
  exact .mk (by decide) (by decide) (by decide)
    (List.forall_mem_cons.mpr ⟨spanned_classOn 1, List.forall_mem_singleton.mpr hdecorated⟩)

end Redefined

/-- The method of the class that is defined again has that class as its parent. -/
theorem Workspace.outline_nests_redefined :
    ∃ o, Redefined.folder.workspace.outline "/repo/a.py" = .ok (some o) ∧
      ∃ a f a' f', o.entities = [a, f, a', f'] ∧ f'.id = "method:A.f" ∧ f'.parentId = some a'.id ∧
        a'.startLine ≤ f'.startLine ∧ f'.endLine ≤ a'.endLine := by
  have hpath : Path.ofText "/repo/a.py" = PlainFolder.repo.child "a.py" := by decide
  have hlanguage : languageOf? (Path.ofText "/repo/a.py").extension = some "python" := by decide
  have hmem : ("a.py", ⟨none, .tree Redefined.root⟩) ∈ Redefined.folder.files := List.mem_cons_self
  have hfile := hpath ▸ PlainFolder.file_eq hmem
  have hnames : ∀ d ∈ flatAll (definitionsOf "python" Redefined.root),
      d.name ≠ "" ∧ ':' ∉ d.name.toList := by decide +kernel
  obtain ⟨o, ho, hlength, hentries⟩ := outline_nests hlanguage hfile rfl hnames
  have hfacts : (flatAll (definitionsOf "python" Redefined.root)).map
      (fun d => (d.kind, d.name, d.place)) =
        [("class", "A", [0]), ("method", "f", [0, 1, 0]), ("class", "A", [1]),
          ("method", "f", [1, 1, 1, 0])] := by decide +kernel
  generalize flatAll (definitionsOf "python" Redefined.root) = ds at hlength hentries hfacts
  obtain ⟨d₀, ds, rfl, h₀, hfacts⟩ := List.map_eq_cons_iff.mp hfacts
  obtain ⟨d₁, ds, rfl, h₁, hfacts⟩ := List.map_eq_cons_iff.mp hfacts
  obtain ⟨d₂, ds, rfl, h₂, hfacts⟩ := List.map_eq_cons_iff.mp hfacts
  obtain ⟨d₃, rfl, h₃⟩ := List.map_eq_singleton_iff.mp hfacts
  simp only [Prod.mk.injEq] at h₀ h₁ h₂ h₃
  obtain ⟨a, es, hes⟩ := List.exists_cons_of_length_eq_add_one hlength
  rw [hes] at hlength
  obtain ⟨f, a', f', rfl⟩ := List.length_eq_three.mp (Nat.add_right_cancel hlength)
  rw [hes] at hentries
  obtain ⟨-, hrecorded, -, -, hlines⟩ := hentries [(d₀, a), (d₁, f), (d₂, a')] d₃ f' [] rfl
  have haround : d₃.around [(d₀, a), (d₁, f), (d₂, a')] = [(d₂, a')] := by
    simp [Definition.around, h₀, h₁, h₂, h₃, encloses]
  have hid := hrecorded.id
  have hparent := hrecorded.parentId
  rw [haround] at hid hparent hlines
  rw [h₃.1, h₃.2.1, List.map_singleton, h₂.2.1] at hid
  exact ⟨o, ho, a, f, a', f', hes, hid, hparent,
    (hlines Redefined.spanned_root).2 _ List.mem_cons_self⟩

end CodeAtlas
