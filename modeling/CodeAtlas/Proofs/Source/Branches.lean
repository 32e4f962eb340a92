import CodeAtlas.Proofs.Source.Walks
import Mathlib.Data.List.TakeWhile

/-!
# Statements in branches

Statements stand in a Python file, in the bodies of definitions and in the branches of compound
statements. The search goes into all of these but the `elif` branches.

* **`Workspace.statements_noted_outside_elif`**: which statements an outline notes.
-/

namespace CodeAtlas

namespace Python

/-! ## Statements -/

def isDefinition (n : SyntaxNode) : Bool :=
  n.kind == "class_definition" || n.kind == "function_definition"

def kindIn (inClass : Bool) (d : SyntaxNode) : String :=
  if d.kind == "class_definition" then "class" else if inClass then "method" else "function"

/-- The statement is a definition or holds it under decorators, where the steps lead. -/
inductive Defines : SyntaxNode → List Nat → SyntaxNode → Prop
  | plain {n : SyntaxNode} (definition : isDefinition n = true) : Defines n [] n
  | decorated {n d : SyntaxNode} {i : Nat} (kind : n.kind = "decorated_definition")
      (first : n.children.findIdx? (·.fills "definition") = some i)
      (child : n.children[i]? = some d) (definition : isDefinition d = true) : Defines n [i] d

/-- The nodes in which the branches of a compound statement stand. -/
def branches : List String := "elif_clause" :: compound

/-- The children at the place are statements, in a class or not, and in an `elif` branch or not. -/
inductive Suite (root : SyntaxNode) : List Nat → Bool → Bool → Prop
  | file : Suite root [] false false
  | branch {above : List Nat} {inClass inElif : Bool} {k : Nat} {n : SyntaxNode}
      (outer : Suite root above inClass inElif) (node : root.node? (above ++ [k]) = some n)
      (kind : n.kind ∈ branches) :
      Suite root (above ++ [k]) inClass (inElif || n.kind == "elif_clause")
  | body {above steps : List Nat} {inClass inElif : Bool} {k j : Nat} {n d : SyntaxNode}
      (outer : Suite root above inClass inElif) (node : root.node? (above ++ [k]) = some n)
      (defines : Defines n steps d) (first : d.children.findIdx? (·.fills "body") = some j) :
      Suite root (above ++ [k] ++ steps ++ [j]) (d.kind == "class_definition") inElif

/-- A statement of a file. -/
structure Statement where
  place : List Nat
  node : SyntaxNode
  inClass : Bool

namespace Statement

/-- The statement stands in the tree, in an `elif` branch or not. -/
structure Stands (root : SyntaxNode) (inElif : Bool) (s : Statement) : Prop where
  node : root.node? s.place = some s.node
  suite : ∃ above k, s.place = above ++ [k] ∧ Suite root above s.inClass inElif

/-- The imports that the statement brings. -/
def imports (s : Statement) : List ImportLine :=
  if s.node.kind == "import_statement" then plainImports s.node
  else if s.node.kind == "import_from_statement" then fromImports s.node
  else []

/-- The class or function that the statement defines. -/
def defined? (s : Statement) : Option SyntaxNode :=
  if isDefinition s.node then some s.node
  else if s.node.kind == "decorated_definition" then
    (s.node.inField? "definition").filter isDefinition
  else none

/-- The named definition of the statement, with the lines of the statement. -/
def definition? (s : Statement) : Option (String × String × Int × Int) :=
  s.defined?.bind fun d =>
    if (d.fieldText "name").isEmpty then none
    else some (kindIn s.inClass d, d.fieldText "name", s.node.label.startLine, s.node.label.endLine)

end Statement

/-! ## The walk -/

/-- How the search comes to a node. -/
inductive Mode where
  | statement (inClass : Bool)
  | definition
  | suite (inClass : Bool)

def intoBody (n : SyntaxNode) : Nat → Option Mode :=
  Walk.inFirst "body" (.suite (n.kind == "class_definition")) n

def walk : Walk Mode where
  onward
    | .suite inClass, _, _ => some (.statement inClass)
    | .definition, n, k => intoBody n k
    | .statement inClass, n, k =>
      if isDefinition n then intoBody n k
      else if n.kind == "decorated_definition" then
        if (n.inField? "definition").any isDefinition then
          Walk.inFirst "definition" .definition n k
        else none
      else if compound.contains n.kind then some (.statement inClass)
      else none

def statement? (v : Visit Mode) : Option Statement :=
  match v.mode with
  | .statement inClass => some ⟨v.place, v.node, inClass⟩
  | _ => none

variable {α : Type} (R : Outline.Reading α)

def ofStatement (s : Statement) : List α :=
  R.ofImports s.imports ++
    (s.defined?.map fun d =>
      R.ofDefinition (kindIn s.inClass d) (d.fieldText "name") s.node.label).getD []

def ofVisits (visits : List (Visit Mode)) : List α :=
  (visits.filterMap statement?).flatMap (ofStatement R)

theorem ofVisits_append (u v : List (Visit Mode)) :
    ofVisits R (u ++ v) = ofVisits R u ++ ofVisits R v := by
  rw [ofVisits, List.filterMap_append, List.flatMap_append]
  rfl

theorem ofVisits_cons (place : List Nat) (n : SyntaxNode) (inClass : Bool)
    (visits : List (Visit Mode)) : ofVisits R (⟨place, n, .statement inClass⟩ :: visits) =
      ofStatement R ⟨place, n, inClass⟩ ++ ofVisits R visits :=
  rfl

/-! ## What the search notes -/

theorem definition?_eq_ite (here : Nesting) (n : SyntaxNode) :
    Python.definition? here n =
      if isDefinition n then
        some (kindIn here.inClass n, n.fieldText "name",
          here.inside (n.fieldText "name") (n.kind == "class_definition"))
      else none := by
  unfold Python.definition? isDefinition kindIn
  cases n.kind == "class_definition" <;> simp

theorem enterBody_eq (here : Nesting) (ns : List SyntaxNode) (o : Outline) :
    enterBody here ns o =
      (ns.find? (·.fills "body")).elim o fun b => enterStatements here b.children o := by
  induction ns with
  | nil => rfl
  | cons n ns ih =>
    rw [enterBody, List.find?_cons]
    cases n.fills "body" with
    | true => cases n; rfl
    | false => exact ih

theorem enterBodyOf_eq (here : Nesting) (n : SyntaxNode) (o : Outline) :
    enterBodyOf here n o = enterBody here n.children o := by
  cases n
  rfl

theorem enterDecorated_eq (here : Nesting) (lines : SyntaxLabel) (ns : List SyntaxNode)
    (o : Outline) : enterDecorated here lines ns o =
      (ns.find? (·.fills "definition")).elim o fun d =>
        (Python.definition? here d).elim o fun x =>
          enterBody x.2.2 d.children (o.enter x.1 x.2.1 lines here.scope) := by
  induction ns with
  | nil => rfl
  | cons n ns ih =>
    rw [enterDecorated, List.find?_cons]
    cases n.fills "definition" with
    | true =>
      cases hn : Python.definition? here n with
      | none => simp [hn]
      | some x => simp [hn, enterBodyOf_eq]
    | false => exact ih

def Noted (n : SyntaxNode) : Prop :=
  ∀ (here : Nesting) (place : List Nat) (o : Outline), R.read (enterStatement here n o) =
    R.read o ++ ofVisits R (walk.visitsAt place (.statement here.inClass) n)

variable {R}

theorem read_enterStatements {ns : List SyntaxNode} (h : ∀ n ∈ ns, Noted R n) (here : Nesting)
    (place : List Nat) (k : Nat) (o : Outline) : R.read (enterStatements here ns o) =
      R.read o ++
        ofVisits R (walk.visitsIn place (fun _ => some (.statement here.inClass)) k ns) := by
  induction ns generalizing k o with
  | nil => exact (List.append_nil _).symm
  | cons n ns ih =>
    obtain ⟨hn, hns⟩ := List.forall_mem_cons.mp h
    rw [enterStatements, ih hns (k + 1), hn here (place ++ [k]), Walk.visitsIn, ofVisits_append,
      List.append_assoc]

theorem read_enterBody {d : SyntaxNode} (h : ∀ b ∈ d.children, ∀ n ∈ b.children, Noted R n)
    {here : Nesting} (hclass : here.inClass = (d.kind == "class_definition")) (place : List Nat)
    (o : Outline) : R.read (enterBody here d.children o) =
      R.read o ++ ofVisits R (walk.visitsIn place (intoBody d) 0 d.children) := by
  rw [enterBody_eq]
  rcases Walk.visitsIn_first (w := walk) place "body" (.suite (d.kind == "class_definition")) d with
    ⟨hnone, hvisits⟩ | ⟨i, b, hb, hsome, hvisits⟩
  · rw [intoBody, hvisits, show d.children.find? (·.fills "body") = none from hnone]
    exact (List.append_nil _).symm
  · rw [intoBody, hvisits, show d.children.find? (·.fills "body") = some b from hsome,
      Walk.visitsAt_eq, ← hclass]
    exact read_enterStatements (h b (List.mem_of_getElem? hb)) here (place ++ [i]) 0 o

theorem ofVisits_none (place : List Nat) (ns : List SyntaxNode) :
    ofVisits R (walk.visitsIn place (fun _ => none) 0 ns) = [] := by
  rw [Walk.visitsIn_eq_nil fun _ _ => rfl]
  rfl

section Step

variable {n : SyntaxNode} (below : ∀ m, sizeOf m < sizeOf n → Noted R m)

include below

theorem noted_definition (hn : isDefinition n = true) : Noted R n := by
  intro here place o
  have himports : Statement.imports ⟨place, n, here.inClass⟩ = [] := by
    simp only [isDefinition, Bool.or_eq_true, beq_iff_eq] at hn
    rcases hn with hn | hn <;> simp [Statement.imports, hn]
  have honward : walk.onward (.statement here.inClass) n = intoBody n := by
    funext k
    simp [walk, hn]
  have hbelow : ∀ b ∈ n.children, ∀ m ∈ b.children, Noted R m := fun b hb m hm =>
    below m (Nat.lt_trans (SyntaxNode.sizeOf_lt_of_mem hm) (SyntaxNode.sizeOf_lt_of_mem hb))
  have henter : enterStatement here n o =
      enterBody (here.inside (n.fieldText "name") (n.kind == "class_definition")) n.children
        (o.enter (kindIn here.inClass n) (n.fieldText "name") n.label here.scope) := by
    have hdefinition := definition?_eq_ite here n
    rw [if_pos hn] at hdefinition
    obtain ⟨label, children⟩ := n
    rw [enterStatement, hdefinition]
    rfl
  rw [henter, read_enterBody hbelow rfl place, R.read_enter, Walk.visitsAt_eq, honward,
    ofVisits_cons, ofStatement, himports, R.ofImports_nil, List.append_assoc]
  simp [Statement.defined?, hn]

omit below in
theorem enterStatement_of_not_isDefinition (hn : isDefinition n = false) (here : Nesting)
    (o : Outline) : enterStatement here n o =
      if n.kind == "decorated_definition" then enterDecorated here n.label n.children o
      else if n.kind == "import_statement" then o.addImports (plainImports n)
      else if n.kind == "import_from_statement" then o.addImports (fromImports n)
      else if compound.contains n.kind then enterStatements here n.children o
      else o := by
  have hdefinition := definition?_eq_ite here n
  rw [if_neg (Bool.eq_false_iff.mp hn)] at hdefinition
  obtain ⟨label, children⟩ := n
  rw [enterStatement, hdefinition]
  rfl

theorem noted_decorated (hn : isDefinition n = false) (hkind : n.kind = "decorated_definition") :
    Noted R n := by
  intro here place o
  have himports : Statement.imports ⟨place, n, here.inClass⟩ = [] := by
    simp [Statement.imports, hkind]
  have hdefined : Statement.defined? ⟨place, n, here.inClass⟩ =
      (n.inField? "definition").filter isDefinition := by
    simp [Statement.defined?, hn, hkind]
  have honward : walk.onward (.statement here.inClass) n = fun k =>
      if (n.inField? "definition").any isDefinition then
        Walk.inFirst "definition" .definition n k
      else none := by
    funext k
    simp [walk, hn, hkind]
  rw [enterStatement_of_not_isDefinition hn, if_pos (beq_iff_eq.mpr hkind), enterDecorated_eq,
    Walk.visitsAt_eq, ofVisits_cons, ofStatement, himports, hdefined, honward, R.ofImports_nil,
    List.nil_append]
  change R.read ((n.inField? "definition").elim o _) = _
  rcases Walk.visitsIn_first (w := walk) place "definition" .definition n with
    ⟨hnone, -⟩ | ⟨i, d, hd, hsome, hvisits⟩
  · simp [hnone, ofVisits_none]
  · by_cases hdefinition : isDefinition d = true
    · have hbelow : ∀ b ∈ d.children, ∀ m ∈ b.children, Noted R m := by
        intro b hb m hm
        have hsize := SyntaxNode.sizeOf_lt_of_mem (List.mem_of_getElem? hd)
        have hsize' := SyntaxNode.sizeOf_lt_of_mem hb
        have hsize'' := SyntaxNode.sizeOf_lt_of_mem hm
        exact below m (by omega)
      simp only [hsome, Option.elim_some, Option.any_some, definition?_eq_ite, hdefinition, if_true,
        Option.filter_some, Option.map_some, Option.getD_some, hvisits]
      rw [read_enterBody hbelow rfl (place ++ [i]), R.read_enter, List.append_assoc,
        Walk.visitsAt_eq]
      rfl
    · simp [hsome, definition?_eq_ite, hdefinition, ofVisits_none, Option.filter_some]

theorem noted_other (hn : isDefinition n = false) (hkind : n.kind ≠ "decorated_definition") :
    Noted R n := by
  intro here place o
  have hstatement : ofStatement R ⟨place, n, here.inClass⟩ =
      R.ofImports (Statement.imports ⟨place, n, here.inClass⟩) := by
    simp [ofStatement, Statement.defined?, hn, hkind]
  have honward : walk.onward (.statement here.inClass) n = fun _ =>
      if compound.contains n.kind then some (.statement here.inClass) else none := by
    funext k
    simp [walk, hn, hkind]
  rw [enterStatement_of_not_isDefinition hn, if_neg (by simpa using hkind), Walk.visitsAt_eq,
    ofVisits_cons, hstatement, honward]
  by_cases himport : n.kind = "import_statement"
  · simp [Statement.imports, himport, compound, ofVisits_none, R.read_addImports]
  by_cases hfrom : n.kind = "import_from_statement"
  · simp [Statement.imports, hfrom, compound, ofVisits_none, R.read_addImports]
  have himports : Statement.imports ⟨place, n, here.inClass⟩ = [] := by
    simp [Statement.imports, himport, hfrom]
  rw [if_neg (by simpa using himport), if_neg (by simpa using hfrom), himports, R.ofImports_nil,
    List.nil_append]
  split
  · exact read_enterStatements (fun m hm => below m (SyntaxNode.sizeOf_lt_of_mem hm)) here place 0 o
  · rw [ofVisits_none, List.append_nil]

end Step

/-- **A statement adds what the statements on the walk add.** -/
theorem noted (n : SyntaxNode) : Noted R n := by
  have below : ∀ m, sizeOf m < sizeOf n → Noted R m := fun m _ => noted m
  cases hn : isDefinition n with
  | true => exact noted_definition below hn
  | false =>
    by_cases hkind : n.kind = "decorated_definition"
    · exact noted_decorated below hn hkind
    · exact noted_other below hn hkind
termination_by sizeOf n

def statementsOf (root : SyntaxNode) : List Statement :=
  (walk.visitsAt [] (.suite false) root).filterMap statement?

/-- **What is read off an outline** is what the statements that the search comes to add. -/
theorem read_outlineOf (R : Outline.Reading α) (path : String) (root : SyntaxNode) :
    R.read (outlineOf path root) =
      R.read { path := path, language := "python" } ++
        (statementsOf root).flatMap (ofStatement R) := by
  have hnoted : ∀ n ∈ root.children, Noted R n := fun n _ => noted n
  have hinside : outlineOf path root =
      enterStatements {} root.children { path := path, language := "python" } := by
    cases root
    rfl
  rw [hinside, read_enterStatements hnoted {} [] 0, statementsOf, Walk.visitsAt_eq]
  rfl

theorem picks_statement :
    Walk.Picks statement? fun s => ⟨s.place, s.node, .statement s.inClass⟩ := by
  rintro ⟨place, n, mode⟩ ⟨place', n', inClass⟩
  cases mode <;> simp [statement?]

theorem mem_statementsOf {root : SyntaxNode} {s : Statement} : s ∈ statementsOf root ↔
    walk.arrive (.suite false) root s.place = some (s.node, .statement s.inClass) :=
  picks_statement.mem_iff

/-! ## Where the walk comes -/

variable {root n d : SyntaxNode} {place steps : List Nat} {inClass inElif : Bool} {k j : Nat}

theorem arrive_body (harrive : walk.arrive (.suite false) root place = some (n, .statement inClass))
    (hdefines : Defines n steps d) (hfirst : d.children.findIdx? (·.fills "body") = some j) :
    ∃ b, walk.arrive (.suite false) root (place ++ steps ++ [j]) =
      some (b, .suite (d.kind == "class_definition")) := by
  obtain ⟨hlt, -⟩ := List.findIdx?_eq_some_iff_getElem.mp hfirst
  have hb : d.children[j]? = some d.children[j] := List.getElem?_eq_getElem hlt
  refine ⟨d.children[j], Walk.arrive_concat.mpr ?_⟩
  cases hdefines with
  | plain hdefinition =>
    rw [List.append_nil]
    exact ⟨n, _, harrive, hb, by simp [walk, hdefinition, intoBody, Walk.inFirst, hfirst]⟩
  | decorated hkind hinner hchild hdefinition =>
    have hn : isDefinition n = false := by simp [isDefinition, hkind]
    have hfield := SyntaxNode.inField?_eq_some_iff.mpr ⟨_, hinner, hchild⟩
    refine ⟨d, .definition, Walk.arrive_concat.mpr ⟨n, _, harrive, hchild, ?_⟩, hb, ?_⟩
    · simp [walk, hn, hkind, hfield, hdefinition, Walk.inFirst, hinner]
    · simp [walk, intoBody, Walk.inFirst, hfirst]

/-- The walk comes to all suites outside `elif` branches, and to no others. -/
theorem Suite.arrives (h : Suite root place inClass inElif) :
    (inElif = false → ∃ n mode, walk.arrive (.suite false) root place = some (n, mode) ∧
      ∀ k, walk.onward mode n k = some (.statement inClass)) ∧
    (inElif = true → ∀ k, walk.arrive (.suite false) root (place ++ [k]) = none) := by
  have hstep : ∀ {above : List Nat} {inClass : Bool} {k : Nat} {n : SyntaxNode},
      (∃ m mode, walk.arrive (.suite false) root above = some (m, mode) ∧
        ∀ k, walk.onward mode m k = some (.statement inClass)) →
      root.node? (above ++ [k]) = some n →
      walk.arrive (.suite false) root (above ++ [k]) = some (n, .statement inClass) := by
    rintro above inClass k n ⟨m, mode, harrive, honward⟩ hnode
    rw [SyntaxNode.node?_concat, Walk.node?_of_arrive harrive] at hnode
    exact Walk.arrive_concat.mpr ⟨m, mode, harrive, hnode, honward k⟩
  induction h with
  | file => exact ⟨fun _ => ⟨root, .suite false, rfl, fun _ => rfl⟩, by simp⟩
  | @branch above inClass inElif k n outer node kind ih =>
    cases inElif with
    | true =>
      exact ⟨by simp, fun _ j => Walk.arrive_append_eq_none (ih.2 rfl k) [j]⟩
    | false =>
      have harrive := hstep (ih.1 rfl) node
      rcases List.mem_cons.mp kind with hkind | hkind
      · refine ⟨fun h => by simp [hkind] at h, fun _ j => ?_⟩
        rw [Option.eq_none_iff_forall_ne_some]
        rintro ⟨m, mode⟩ hm
        obtain ⟨p, s, hp, -, honward⟩ := Walk.arrive_concat.mp hm
        obtain ⟨rfl, rfl⟩ := Prod.mk.inj (Option.some.inj (hp.symm.trans harrive))
        simp [walk, isDefinition, hkind, compound] at honward
      · refine ⟨fun _ => ⟨n, _, harrive, fun j => ?_⟩, fun h => ?_⟩
        · have hplain : ∀ kind ∈ compound, kind ≠ "class_definition" ∧
              kind ≠ "function_definition" ∧ kind ≠ "decorated_definition" := by decide
          obtain ⟨hclass, hfunction, hdecorated⟩ := hplain _ hkind
          simp [walk, isDefinition, hclass, hfunction, hdecorated, hkind]
        · have helif : n.kind ≠ "elif_clause" := fun he => by
            rw [he] at hkind
            revert hkind
            decide
          simp [helif] at h
  | @body above steps inClass inElif k j n d outer node defines first ih =>
    cases inElif with
    | true =>
      refine ⟨by simp, fun _ i => ?_⟩
      rw [List.append_assoc, List.append_assoc]
      exact Walk.arrive_append_eq_none (ih.2 rfl k) _
    | false =>
      obtain ⟨b, hb⟩ := arrive_body (hstep (ih.1 rfl) node) defines first
      exact ⟨fun _ => ⟨b, _, hb, fun _ => rfl⟩, by simp⟩

/-- What is known of a node to which the walk comes in a mode. -/
def Reached (root : SyntaxNode) (place : List Nat) (n : SyntaxNode) : Mode → Prop
  | .suite inClass => Suite root place inClass false
  | .statement inClass => ∃ above k, place = above ++ [k] ∧ Suite root above inClass false
  | .definition => ∃ above k i inClass m, place = above ++ [k] ++ [i] ∧
      Suite root above inClass false ∧ root.node? (above ++ [k]) = some m ∧ Defines m [i] n

/-- The walk comes to nothing but suites outside `elif` branches and what is in them. -/
theorem reached_of_arrive {mode : Mode}
    (h : walk.arrive (.suite false) root place = some (n, mode)) : Reached root place n mode := by
  induction place using List.reverseRecOn generalizing n mode with
  | nil =>
    obtain ⟨rfl, rfl⟩ := Prod.mk.inj (Option.some.inj h)
    exact .file
  | append_singleton place k ih =>
    obtain ⟨p, s, hp, hc, honward⟩ := Walk.arrive_concat.mp h
    have hnode := Walk.node?_of_arrive hp
    cases s with
    | suite c =>
      obtain rfl := Option.some.inj honward
      exact ⟨place, k, rfl, ih hp⟩
    | definition =>
      obtain ⟨above, l, i, c, m, rfl, hsuite, hm, hdefines⟩ := ih hp
      obtain ⟨hfirst, rfl⟩ := Walk.inFirst_eq_some.mp honward
      exact hsuite.body hm hdefines hfirst
    | statement c =>
      obtain ⟨above, l, rfl, hsuite⟩ := ih hp
      simp only [walk] at honward
      split_ifs at honward with hdefinition hdecorated hany hcompound
      · obtain ⟨hfirst, rfl⟩ := Walk.inFirst_eq_some.mp honward
        have hbody := hsuite.body hnode (.plain hdefinition) hfirst
        rwa [List.append_nil] at hbody
      · obtain ⟨hfirst, rfl⟩ := Walk.inFirst_eq_some.mp honward
        rw [SyntaxNode.inField?_eq_some_iff.mpr ⟨k, hfirst, hc⟩, Option.any_some] at hany
        exact ⟨above, l, k, c, p, rfl, hsuite, hnode,
          .decorated (eq_of_beq hdecorated) hfirst hc hany⟩
      · obtain rfl := Option.some.inj honward
        have hmem : p.kind ∈ compound := List.contains_iff_mem.mp hcompound
        have hplain : ∀ kind ∈ compound, (kind == "elif_clause") = false := by decide
        have hbranch := hsuite.branch hnode (List.mem_cons_of_mem _ hmem)
        rw [hplain _ hmem] at hbranch
        exact ⟨above ++ [l], k, rfl, hbranch⟩

/-! ## Import statements -/

namespace Statement

/-- An import of no names, or of all names from a folder without a module. -/
def NamesNothing (s : Statement) : Prop :=
  (s.node.kind = "import_statement" ∧ s.node.allInField "name" = []) ∨
    (s.node.kind = "import_from_statement" ∧ s.node.fieldText "module_name" ≠ "" ∧
      (∀ c ∈ (s.node.fieldText "module_name").toList, c = '.') ∧
      ∀ name ∈ importedNames s.node, name = "*")

/-- A text is made of dots just if nothing is behind those at its start. -/
theorem all_dots_iff (parts : List Char) :
    (parts ≠ [] ∧ ∀ c ∈ parts, c = '.') ↔
      (parts.takeWhile (· == '.')).length ≠ 0 ∧
        parts.drop (parts.takeWhile (· == '.')).length = [] := by
  have hdrop : parts.drop (parts.takeWhile (· == '.')).length = parts.dropWhile (· == '.') := by
    calc parts.drop (parts.takeWhile (· == '.')).length
        = (parts.takeWhile (· == '.') ++ parts.dropWhile (· == '.')).drop
            (parts.takeWhile (· == '.')).length := by rw [List.takeWhile_append_dropWhile]
      _ = parts.dropWhile (· == '.') := List.drop_left
  rw [hdrop, List.dropWhile_eq_nil_iff]
  simp only [beq_iff_eq]
  refine and_congr_left fun hall => ?_
  have htake : parts.takeWhile (· == '.') = parts :=
    List.takeWhile_eq_self_iff.mpr fun c hc => beq_iff_eq.mpr (hall c hc)
  rw [htake, ne_eq, ne_eq, List.length_eq_zero_iff]

theorem fromImports_eq_nil_iff (n : SyntaxNode) : fromImports n = [] ↔
    n.fieldText "module_name" ≠ "" ∧ (∀ c ∈ (n.fieldText "module_name").toList, c = '.') ∧
      ∀ name ∈ importedNames n, name = "*" := by
  have hempty : ∀ cs : List Char,
      (Text.replaceChar '.' '/' (String.ofList cs)).isEmpty = true ↔ cs = [] := by
    intro cs
    simp [Text.replaceChar, String.isEmpty_iff, String.ofList_eq_empty_iff]
  unfold fromImports
  dsimp only
  rw [ne_eq, ← String.toList_eq_nil_iff, ← and_assoc, ← ne_eq, all_dots_iff]
  split_ifs with hdots hrest
  · simp [hdots]
  · rw [hempty] at hrest
    simp [hdots, hrest]
  · rw [hempty] at hrest
    simp [hrest]

theorem imports_eq_nil_iff {s : Statement}
    (h : s.node.kind ∈ ["import_statement", "import_from_statement"]) :
    s.imports = [] ↔ s.NamesNothing := by
  simp only [List.mem_cons, List.not_mem_nil, or_false] at h
  rcases h with h | h
  · simp [imports, NamesNothing, h, plainImports]
  · simp [imports, NamesNothing, h, fromImports_eq_nil_iff]

/-- Imports from `__future__` bring nothing. -/
theorem of_future {s : Statement} (h : s.node.kind = "future_import_statement") :
    s.imports = [] ∧ s.definition? = none := by
  simp [imports, definition?, defined?, isDefinition, h]

theorem line_of_mem_imports {s : Statement} {i : ImportLine} (h : i ∈ s.imports) :
    i.line = s.node.label.startLine := by
  unfold imports plainImports fromImports at h
  dsimp only at h
  split_ifs at h
  · obtain ⟨name, -, rfl⟩ := List.mem_map.mp h
    rfl
  · rw [List.mem_singleton.mp h]
  · obtain ⟨name, -, rfl⟩ := List.mem_map.mp h
    rfl
  · rw [List.mem_singleton.mp h]
  · cases h

end Statement

/-! ## The outline of a tree -/

theorem imports_outlineOf (path : String) (root : SyntaxNode) :
    (outlineOf path root).imports = (statementsOf root).flatMap (·.imports) := by
  have hread := read_outlineOf Outline.Reading.imports path root
  have hstatement : ofStatement Outline.Reading.imports = Statement.imports := by
    funext s
    simp only [ofStatement, Outline.Reading.imports]
    cases s.defined? <;> simp
  rw [hstatement] at hread
  exact hread

theorem definitions_outlineOf (path : String) (root : SyntaxNode) :
    (outlineOf path root).entities.map (fun e => (e.kind, e.name, e.startLine, e.endLine)) =
      (statementsOf root).filterMap (·.definition?) := by
  have hread := read_outlineOf Outline.Reading.definitions path root
  have hstatement : ofStatement Outline.Reading.definitions = fun s => s.definition?.toList := by
    funext s
    simp only [ofStatement, Outline.Reading.definitions, Statement.definition?]
    cases s.defined? with
    | none => rfl
    | some d => by_cases h : d.fieldText "name" = "" <;> simp [h]
  rw [hstatement, ← List.filterMap_eq_flatMap_toList] at hread
  exact hread

theorem pairwise_statementsOf (root : SyntaxNode) :
    (statementsOf root).Pairwise fun s t => Before s.place t.place :=
  picks_statement.pairwise

theorem Statement.Stands.mem_iff {s : Statement} (h : s.Stands root inElif) :
    s ∈ statementsOf root ↔ inElif = false := by
  obtain ⟨above, k, hplace, hsuite⟩ := h.suite
  have hnode := h.node
  rw [mem_statementsOf]
  rw [hplace] at hnode ⊢
  cases inElif with
  | true => simp [hsuite.arrives.2 rfl k]
  | false =>
    obtain ⟨p, mode, hp, honward⟩ := hsuite.arrives.1 rfl
    rw [SyntaxNode.node?_concat, Walk.node?_of_arrive hp] at hnode
    exact iff_of_true (Walk.arrive_concat.mpr ⟨p, mode, hp, hnode, honward k⟩) rfl

theorem stands_of_mem {s : Statement} (h : s ∈ statementsOf root) : s.Stands root false := by
  have harrive := mem_statementsOf.mp h
  exact ⟨Walk.node?_of_arrive harrive, reached_of_arrive harrive⟩

end Python

/-! ## Outlines -/

open Python

/-- **Statements are noted outside `elif` branches**, each once and in the order of the tree, and
imports under the lines of their statements. What names nothing or imports from `__future__` brings
none. -/
theorem Workspace.statements_noted_outside_elif {w : Workspace} {given : String} {f : SourceFile}
    {root : SyntaxNode} (hlanguage : languageOf? (Path.ofText given).extension = some "python")
    (hfile : w.file (Path.ofText given) = .ok f) (htree : f.reading = .tree root) :
    ∃ o, w.outline given = .ok (some o) ∧ ∃ seen : List Statement,
      seen.Pairwise (fun s t => Before s.place t.place) ∧
      (∀ s ∈ seen, s.Stands root false) ∧
      (∀ s inElif, s.Stands root inElif → (s ∈ seen ↔ inElif = false)) ∧
      o.imports = seen.flatMap (·.imports) ∧
      o.entities.map (fun e => (e.kind, e.name, e.startLine, e.endLine)) =
        seen.filterMap (·.definition?) ∧
      ∀ s : Statement,
        (s.node.kind ∈ ["import_statement", "import_from_statement"] →
          (s.imports = [] ↔ s.NamesNothing)) ∧
        (s.node.kind = "future_import_statement" → s.imports = [] ∧ s.definition? = none) ∧
        ∀ i ∈ s.imports, i.line = s.node.label.startLine := by
  refine ⟨_, outline_of_tree hlanguage hfile htree, statementsOf root, pairwise_statementsOf root,
    fun s hs => stands_of_mem hs, fun s inElif hs => hs.mem_iff, imports_outlineOf _ root,
    definitions_outlineOf _ root, fun s => ⟨Statement.imports_eq_nil_iff, Statement.of_future,
      fun i => Statement.line_of_mem_imports⟩⟩

namespace Conditional

open Redefined (nodeOf)

def importOn (name : String) (line : Nat) : SyntaxNode :=
  nodeOf "import_statement" "" "" line line [nodeOf "dotted_name" "name" name line line []]

/-- The class `A` with a method that imports a module. -/
def classOn (line : Nat) : SyntaxNode :=
  nodeOf "class_definition" "" "" line (line + 2)
    [nodeOf "identifier" "name" "A" line line [],
      nodeOf "block" "body" "" (line + 1) (line + 2)
        [nodeOf "function_definition" "" "" (line + 1) (line + 2)
          [nodeOf "identifier" "name" "f" (line + 1) (line + 1) [],
            nodeOf "block" "body" "" (line + 2) (line + 2) [importOn "k" (line + 2)]]]]

def clause (kind : String) (line last : Nat) (statement : SyntaxNode) : SyntaxNode :=
  nodeOf kind "" "" line last [nodeOf "block" "" "" (line + 1) last [statement]]

/-- An import in each of two branches, and a class in the last. -/
def conditional : SyntaxNode :=
  nodeOf "if_statement" "" "" 1 8
    [nodeOf "block" "" "" 2 2 [importOn "m" 2], clause "elif_clause" 3 4 (importOn "n" 4),
      clause "else_clause" 5 8 (classOn 6)]

def root : SyntaxNode := nodeOf "module" "" "" 1 8 [conditional]

def folder : PlainFolder where
  files := [("a.py", ⟨none, .tree root⟩)]

theorem suite_branch : Suite root [0] false false :=
  .branch (k := 0) (n := conditional) .file rfl (by decide)

theorem stands_first : Statement.Stands root false ⟨[0, 0, 0], importOn "m" 2, false⟩ := by
  have hblock : Suite root [0, 0] false false :=
    .branch (k := 0) (n := nodeOf "block" "" "" 2 2 [importOn "m" 2]) suite_branch rfl (by decide)
  exact ⟨rfl, [0, 0], 0, rfl, hblock⟩

theorem suite_clause {kind : String} {line last k : Nat} {statement : SyntaxNode}
    (hnode : root.node? [0, k] = some (clause kind line last statement))
    (hkind : kind ∈ branches) : Suite root [0, k, 0] false (kind == "elif_clause") := by
  have hclause := Suite.branch suite_branch hnode hkind
  have hblock : root.node? ([0, k] ++ [0]) =
      some (nodeOf "block" "" "" (line + 1) last [statement]) := by
    rw [SyntaxNode.node?_concat, hnode]
    rfl
  have hbranch : "block" ∈ branches := by decide
  have hsuite := Suite.branch hclause hblock hbranch
  exact Bool.or_false (kind == "elif_clause") ▸ hsuite

theorem stands_second : Statement.Stands root true ⟨[0, 1, 0, 0], importOn "n" 4, false⟩ := by
  have hnode : root.node? [0, 1] = some (clause "elif_clause" 3 4 (importOn "n" 4)) := rfl
  exact ⟨rfl, [0, 1, 0], 0, rfl, suite_clause hnode (by decide)⟩

theorem stands_inside : Statement.Stands root false
    ⟨[0, 2, 0, 0, 1, 0, 1, 0], importOn "k" 8, false⟩ := by
  have hnode : root.node? [0, 2] = some (clause "else_clause" 5 8 (classOn 6)) := rfl
  have hblock : Suite root [0, 2, 0] false false := suite_clause hnode (by decide)
  have hclass : Suite root [0, 2, 0, 0, 1] true false :=
    .body (k := 0) (n := classOn 6) (j := 1) hblock rfl (.plain (by decide)) rfl
  exact ⟨rfl, [0, 2, 0, 0, 1, 0, 1], 0, rfl,
    .body (k := 0) (j := 1) hclass rfl (.plain (by decide)) rfl⟩

theorem language_eq : languageOf? (Path.ofText "/repo/a.py").extension = some "python" := by decide

theorem file_eq : folder.workspace.file (Path.ofText "/repo/a.py") = .ok ⟨none, .tree root⟩ := by
  have hpath : Path.ofText "/repo/a.py" = PlainFolder.repo.child "a.py" := by decide
  have hmem : ("a.py", ⟨none, .tree root⟩) ∈ folder.files := List.mem_cons_self
  exact hpath ▸ PlainFolder.file_eq hmem

end Conditional

section Conditions

open Conditional

theorem Workspace.statements_noted_conditional :
    ∃ o, folder.workspace.outline "/repo/a.py" = .ok (some o) ∧ ∃ seen : List Statement,
      seen.Pairwise (fun s t => Before s.place t.place) ∧
      o.imports = seen.flatMap (·.imports) ∧
      ⟨[0, 0, 0], importOn "m" 2, false⟩ ∈ seen ∧
      ⟨[0, 1, 0, 0], importOn "n" 4, false⟩ ∉ seen ∧
      ⟨[0, 2, 0, 0, 1, 0, 1, 0], importOn "k" 8, false⟩ ∈ seen := by
  obtain ⟨o, ho, seen, horder, -, hseen, himports, -⟩ :=
    statements_noted_outside_elif language_eq file_eq rfl
  refine ⟨o, ho, seen, horder, himports, (hseen _ _ stands_first).mpr rfl, fun h => ?_,
    (hseen _ _ stands_inside).mpr rfl⟩
  exact Bool.noConfusion ((hseen _ _ stands_second).mp h)

/-- The import in the second branch is not noted. -/
theorem Workspace.elif_import_missed :
    ∃ o, folder.workspace.outline "/repo/a.py" = .ok (some o) ∧
      o.imports.map (·.source) = ["m", "k"] ∧
      ∃ s : Statement, s.Stands root true ∧ s.imports.map (·.source) = ["n"] := by
  refine ⟨_, outline_of_tree language_eq file_eq rfl, ?_, _, stands_second, ?_⟩
  · decide +kernel
  · decide +kernel

end Conditions

end CodeAtlas
