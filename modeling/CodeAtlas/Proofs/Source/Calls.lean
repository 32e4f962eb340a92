import CodeAtlas.Proofs.Source.Walks

/-!
# Calls that bring in modules

The search looks at all parts of a script, except that of a class it looks only at the body, and of
a variable declared to be a function only at that function.

* **`Workspace.calls_noted_unless_overlooked`**: which of these calls an outline notes.
-/

namespace CodeAtlas

namespace Script

/-! ## The walk -/

def ownImports (n : SyntaxNode) : List ImportLine :=
  if n.kind == "import_statement" then [importOf n]
  else if n.kind == "export_statement" then reexportOf n
  else if n.kind == "call_expression" then requireOf n
  else []

def searchedField? (n : SyntaxNode) : Option String :=
  if classKinds.contains n.kind then some "body"
  else if n.kind == "variable_declarator" &&
      (n.inField? "value").any (functionValues.contains ·.kind) then some "value"
  else none

def closed : List String := ["import_statement", "interface_declaration"]

/-- How the search comes to a node. -/
inductive Mode where
  | looked
  | inside

def walk : Walk Mode where
  onward
    | .inside, _, _ => some .looked
    | .looked, n, k =>
      if closed.contains n.kind then none
      else
        match searchedField? n with
        | some field => Walk.inFirst field .inside n k
        | none => some .looked

def lookedAt? (v : Visit Mode) : Option (List Nat × SyntaxNode) :=
  match v.mode with
  | .looked => some (v.place, v.node)
  | .inside => none

def importsAmong (visits : List (Visit Mode)) : List ImportLine :=
  (visits.filterMap lookedAt?).flatMap fun x => ownImports x.2

theorem importsAmong_append (u v : List (Visit Mode)) :
    importsAmong (u ++ v) = importsAmong u ++ importsAmong v := by
  rw [importsAmong, List.filterMap_append, List.flatMap_append]
  rfl

/-! ## What the search notes -/

theorem imports_enterOwn (n : SyntaxNode) (o : Outline) :
    (enterOwn n o).imports = o.imports ++ ownImports n := by
  unfold enterOwn ownImports
  split_ifs
  · rfl
  · rfl
  · rfl
  · exact (List.append_nil _).symm

theorem enterField_eq (field : String) (here : Nesting) (ns : List SyntaxNode) (o : Outline) :
    enterField field here ns o =
      (ns.find? (·.fills field)).elim o fun c => enterNodes here c.children o := by
  induction ns with
  | nil => rfl
  | cons n ns ih =>
    rw [enterField, List.find?_cons]
    cases n.fills field with
    | true => cases n; rfl
    | false => exact ih

def declaredKinds : List String :=
  classKinds ++ functionKinds ++
    ["method_definition", "interface_declaration", "variable_declarator"]

variable {here : Nesting} {n : SyntaxNode}

variable {x : String × String × Onward} (place : List Nat)

theorem kind_of_declared? (h : declared? here n = some x) : n.kind ∈ declaredKinds := by
  unfold declared? at h
  dsimp only at h
  split_ifs at h with hclass hfunction hmethod hinterface hvariable
  · exact List.mem_append_left _ (List.mem_append_left _ (List.contains_iff_mem.mp hclass))
  · exact List.mem_append_left _ (List.mem_append_right _ (List.contains_iff_mem.mp hfunction))
  · simp [declaredKinds, eq_of_beq (Bool.and_eq_true_iff.mp hmethod).1]
  · simp [declaredKinds, eq_of_beq hinterface]
  · simp [declaredKinds, eq_of_beq (Bool.and_eq_true_iff.mp hvariable).1]

theorem ownImports_of_declared? (h : declared? here n = some x) : ownImports n = [] := by
  have hplain : ∀ kind ∈ declaredKinds, kind ≠ "import_statement" ∧ kind ≠ "export_statement" ∧
      kind ≠ "call_expression" := by decide
  obtain ⟨himport, hexport, hcall⟩ := hplain _ (kind_of_declared? h)
  simp [ownImports, himport, hexport, hcall]

theorem searchedField?_of_declared? {kind name : String}
    {onward : Onward} (h : declared? here n = some (kind, name, onward)) :
    match onward with
    | .stop => n.kind = "interface_declaration"
    | .field field => n.kind ∉ closed ∧ searchedField? n = some field
    | .children => n.kind ∉ closed ∧ searchedField? n = none := by
  unfold declared? at h
  dsimp only at h
  split_ifs at h with hclass hfunction hmethod hinterface hvariable <;> cases h <;> dsimp only
  · have hopen : ∀ kind ∈ classKinds, kind ∉ closed := by decide
    exact ⟨hopen _ (List.contains_iff_mem.mp hclass), by rw [searchedField?, if_pos hclass]⟩
  · have hopen : ∀ kind ∈ functionKinds, kind ∉ closed ∧ kind ≠ "variable_declarator" := by decide
    obtain ⟨hclosed, hother⟩ := hopen _ (List.contains_iff_mem.mp hfunction)
    exact ⟨hclosed, by rw [searchedField?, if_neg hclass, if_neg (by simp [hother])]⟩
  · have hkind := eq_of_beq (Bool.and_eq_true_iff.mp hmethod).1
    refine ⟨by simp [hkind, closed], ?_⟩
    rw [searchedField?, if_neg hclass, if_neg (by simp [hkind])]
  · exact eq_of_beq hinterface
  · have hkind := eq_of_beq (Bool.and_eq_true_iff.mp hvariable).1
    exact ⟨by simp [hkind, closed], by rw [searchedField?, if_neg hclass, if_pos hvariable]⟩

theorem searchedField?_of_not_declared? (h : declared? here n = none) :
    n.kind ≠ "interface_declaration" ∧ searchedField? n = none := by
  unfold declared? at h
  dsimp only at h
  split_ifs at h with hclass hfunction hmethod hinterface hvariable
  exact ⟨fun hkind => hinterface (beq_iff_eq.mpr hkind),
    by rw [searchedField?, if_neg hclass, if_neg hvariable]⟩

theorem onward_closed (h : n.kind ∈ closed) :
    walk.onward .looked n = fun _ => none := by
  funext k
  simp [walk, h]

theorem onward_field {field : String} (h : n.kind ∉ closed)
    (hfield : searchedField? n = some field) :
    walk.onward .looked n = Walk.inFirst field .inside n := by
  funext k
  simp [walk, h, hfield]

theorem onward_children (h : n.kind ∉ closed) (hfield : searchedField? n = none) :
    walk.onward .looked n = fun _ => some .looked := by
  funext k
  simp [walk, h, hfield]

def Noted (n : SyntaxNode) : Prop :=
  ∀ (here : Nesting) (place : List Nat) (o : Outline), (enterNode here n o).imports =
    o.imports ++ importsAmong (walk.visitsAt place .looked n)

theorem imports_enterNodes {ns : List SyntaxNode} (h : ∀ n ∈ ns, Noted n) (here : Nesting)
    (place : List Nat) (k : Nat) (o : Outline) : (enterNodes here ns o).imports =
      o.imports ++ importsAmong (walk.visitsIn place (fun _ => some .looked) k ns) := by
  induction ns generalizing k o with
  | nil => exact (List.append_nil _).symm
  | cons n ns ih =>
    obtain ⟨hn, hns⟩ := List.forall_mem_cons.mp h
    rw [enterNodes, ih hns (k + 1), hn here (place ++ [k]), Walk.visitsIn, importsAmong_append,
      List.append_assoc]

theorem imports_enterField (h : ∀ c ∈ n.children, ∀ m ∈ c.children, Noted m)
    (field : String) (here : Nesting) (place : List Nat) (o : Outline) :
    (enterField field here n.children o).imports =
      o.imports ++
        importsAmong (walk.visitsIn place (Walk.inFirst field .inside n) 0 n.children) := by
  rw [enterField_eq]
  change ((n.inField? field).elim o _).imports = _
  rcases Walk.visitsIn_first (w := walk) place field .inside n with
    ⟨hnone, hvisits⟩ | ⟨i, c, hc, hsome, hvisits⟩
  · rw [hvisits, hnone]
    exact (List.append_nil _).symm
  · rw [hvisits, hsome, Walk.visitsAt_eq]
    exact imports_enterNodes (h c (List.mem_of_getElem? hc)) here (place ++ [i]) 0 o

theorem importsAmong_visitsAt (n : SyntaxNode) :
    importsAmong (walk.visitsAt place .looked n) =
      ownImports n ++ importsAmong (walk.visitsIn place (walk.onward .looked n) 0 n.children) := by
  rw [Walk.visitsAt_eq]
  rfl

theorem importsAmong_none (ns : List SyntaxNode) :
    importsAmong (walk.visitsIn place (fun _ => none) 0 ns) = [] := by
  rw [Walk.visitsIn_eq_nil fun _ _ => rfl]
  rfl

theorem enterNode_eq (here : Nesting) (n : SyntaxNode) (o : Outline) :
    enterNode here n o =
      match declared? here n with
      | some (kind, name, onward) =>
        match onward with
        | .stop => o.enter kind name n.label here.scope
        | .field field =>
          enterField field (here.inside name (kind == "class")) n.children
            (o.enter kind name n.label here.scope)
        | .children =>
          enterNodes (here.inside name (kind == "class")) n.children
            (o.enter kind name n.label here.scope)
      | none =>
        if n.kind == "import_statement" then enterOwn n o
        else enterNodes here n.children (enterOwn n o) := by
  obtain ⟨label, children⟩ := n
  rw [enterNode]
  rfl

/-- **A node adds the imports of the nodes looked at.** -/
theorem noted (n : SyntaxNode) : Noted n := by
  have below : ∀ m, sizeOf m < sizeOf n → Noted m := fun m _ => noted m
  have hbelow : ∀ c ∈ n.children, Noted c := fun c hc => below c (SyntaxNode.sizeOf_lt_of_mem hc)
  intro here place o
  rw [enterNode_eq, importsAmong_visitsAt]
  cases hdeclared : declared? here n with
  | some x =>
    obtain ⟨kind, name, onward⟩ := x
    have hwhere := searchedField?_of_declared? hdeclared
    rw [ownImports_of_declared? hdeclared, List.nil_append]
    cases onward with
    | stop =>
      rw [onward_closed (by simp [hwhere, closed]), importsAmong_none, List.append_nil]
      exact o.imports_enter _ _ _ _
    | field field =>
      rw [onward_field hwhere.1 hwhere.2]
      dsimp only
      rw [imports_enterField (fun c hc m hm => below m (Nat.lt_trans
        (SyntaxNode.sizeOf_lt_of_mem hm) (SyntaxNode.sizeOf_lt_of_mem hc))) field _ place,
        o.imports_enter]
    | children =>
      rw [onward_children hwhere.1 hwhere.2]
      dsimp only
      rw [imports_enterNodes hbelow _ place 0, o.imports_enter]
  | none =>
    obtain ⟨hinterface, hfield⟩ := searchedField?_of_not_declared? hdeclared
    dsimp only
    by_cases himport : n.kind = "import_statement"
    · rw [if_pos (beq_iff_eq.mpr himport), imports_enterOwn,
        onward_closed (by simp [himport, closed]), importsAmong_none, List.append_nil]
    · rw [if_neg (by simpa using himport), imports_enterNodes hbelow here place 0,
        imports_enterOwn, onward_children (by simp [closed, himport, hinterface]) hfield,
        List.append_assoc]
termination_by sizeOf n

def lookedAt (root : SyntaxNode) : List (List Nat × SyntaxNode) :=
  (walk.visitsAt [] .inside root).filterMap lookedAt?

/-- **The imports of an outline** are those of the nodes that the search looks at. -/
theorem imports_outlineOf (path language : String) (root : SyntaxNode) :
    (outlineOf path language root).imports = (lookedAt root).flatMap fun x => ownImports x.2 := by
  have hinside : outlineOf path language root =
      enterNodes {} root.children { path := path, language := language } := by
    cases root
    rfl
  have hnoted : ∀ n ∈ root.children, Noted n := fun n _ => noted n
  rw [hinside, imports_enterNodes hnoted {} [] 0, lookedAt, Walk.visitsAt_eq]
  rfl

theorem picks_lookedAt : Walk.Picks lookedAt? fun x => ⟨x.1, x.2, .looked⟩ := by
  rintro ⟨place, n, mode⟩ ⟨place', n'⟩
  cases mode <;> simp [lookedAt?]

theorem mem_lookedAt {root n : SyntaxNode} {place : List Nat} :
    (place, n) ∈ lookedAt root ↔ walk.arrive .inside root place = some (n, .looked) :=
  picks_lookedAt.mem_iff

theorem pairwise_lookedAt (root : SyntaxNode) :
    (lookedAt root).Pairwise fun x y => Before x.1 y.1 :=
  picks_lookedAt.pairwise

/-! ## Calls -/

/-- The node calls `require` or `import` with a text first among the arguments. -/
structure BringsIn (n : SyntaxNode) (literal : String) : Prop where
  kind : n.kind = "call_expression"
  function : ∃ function, n.inField? "function" = some function ∧ bringsIn function = true
  argument : ∃ arguments s, n.inField? "arguments" = some arguments ∧
    arguments.namedChildren.find? (·.kind == "string") = some s ∧ s.text = literal

theorem BringsIn.ownImports_eq {literal : String} (h : BringsIn n literal) :
    ownImports n = [{ source := unquote literal, line := n.label.startLine }] := by
  obtain ⟨function, hfunction, hbrings⟩ := h.function
  obtain ⟨arguments, s, harguments, hs, htext⟩ := h.argument
  simp [ownImports, h.kind, requireOf, hfunction, harguments, hbrings, hs, htext]

/-- The place is inside an import statement or an interface. -/
def Shut (root : SyntaxNode) (place : List Nat) : Prop :=
  ∃ above m, encloses above place = true ∧ root.node? above = some m ∧ m.kind ∈ closed

/-- The place is in a part of a node that is not in the field where the search goes on. -/
def Overlooked (root : SyntaxNode) (place : List Nat) : Prop :=
  ∃ above k rest m field, above ≠ [] ∧ place = above ++ k :: rest ∧ root.node? above = some m ∧
    searchedField? m = some field ∧ m.children.findIdx? (·.fills field) ≠ some k

/-- The bodies of classes are class bodies. -/
def ClassBodies (root : SyntaxNode) : Prop :=
  ∀ place n b, root.node? place = some n → n.kind ∈ classKinds → n.inField? "body" = some b →
    b.kind = "class_body"

/-- The kinds of nodes in the fields in which alone the search goes on. -/
def innerKinds : List String := "class_body" :: functionValues

section Places

variable {root n m : SyntaxNode} {place : List Nat} {k : Nat}

theorem searchedField?_innerKinds (h : n.kind ∈ innerKinds) : searchedField? n = none := by
  have hplain : ∀ kind ∈ innerKinds, kind ∉ classKinds ∧ kind ≠ "variable_declarator" := by decide
  obtain ⟨hclass, hvariable⟩ := hplain _ h
  simp [searchedField?, hclass, hvariable]

/-- What is in the field in which alone the search goes on is of one of these kinds. -/
theorem kind_of_searchedField? (hbodies : ClassBodies root) (hm : root.node? place = some m)
    {field : String} (hfield : searchedField? m = some field) (hn : m.inField? field = some n) :
    n.kind ∈ innerKinds := by
  unfold searchedField? at hfield
  split_ifs at hfield with hclass hvariable
  · cases hfield
    rw [hbodies place m n hm (List.contains_iff_mem.mp hclass) hn]
    exact List.mem_cons_self
  · cases hfield
    have hany := (Bool.and_eq_true_iff.mp hvariable).2
    rw [hn, Option.any_some] at hany
    exact List.mem_cons_of_mem _ (List.contains_iff_mem.mp hany)

theorem onward_looked_iff {mode : Mode} : walk.onward .looked n k = some mode ↔ n.kind ∉ closed ∧
    ((∃ field, searchedField? n = some field ∧ n.children.findIdx? (·.fills field) = some k ∧
      mode = .inside) ∨ (searchedField? n = none ∧ mode = .looked)) := by
  by_cases hclosed : n.kind ∈ closed
  · simp [onward_closed hclosed, hclosed]
  · cases hfield : searchedField? n with
    | none =>
      rw [onward_children hclosed hfield]
      simp [hclosed, eq_comm]
    | some field =>
      rw [onward_field hclosed hfield, Walk.inFirst_eq_some]
      simp [hclosed, eq_comm]

theorem kind_of_inside (hbodies : ClassBodies root)
    (h : walk.arrive .inside root place = some (n, .inside)) :
    place = [] ∨ n.kind ∈ innerKinds := by
  rcases List.eq_nil_or_concat' place with hnil | ⟨above, k, rfl⟩
  · exact Or.inl hnil
  · obtain ⟨p, mode, hp, hc, honward⟩ := Walk.arrive_concat.mp h
    cases mode with
    | inside => cases honward
    | looked =>
      rcases (onward_looked_iff.mp honward).2 with ⟨field, hfield, hfirst, -⟩ | ⟨-, hmode⟩
      · have hn := SyntaxNode.inField?_eq_some_iff.mpr ⟨k, hfirst, hc⟩
        exact Or.inr (kind_of_searchedField? hbodies (Walk.node?_of_arrive hp) hfield hn)
      · cases hmode

theorem not_overlooked_of_arrive (hbodies : ClassBodies root) {mode : Mode}
    (h : walk.arrive .inside root place = some (n, mode)) : ¬ Overlooked root place := by
  rintro ⟨above, k, rest, m, field, hne, rfl, hm, hfield, hfirst⟩
  rw [List.append_cons, Walk.arrive_append] at h
  obtain ⟨⟨c, s⟩, hc, -⟩ := Option.bind_eq_some_iff.mp h
  obtain ⟨p, mode', hp, -, honward⟩ := Walk.arrive_concat.mp hc
  obtain rfl := Option.some.inj (hm.symm.trans (Walk.node?_of_arrive hp))
  cases mode' with
  | inside =>
    rcases kind_of_inside hbodies hp with hnil | hkind
    · exact hne hnil
    · rw [searchedField?_innerKinds hkind] at hfield
      cases hfield
  | looked =>
    rcases (onward_looked_iff.mp honward).2 with ⟨field', hfield', hfirst', -⟩ | ⟨hnone, -⟩
    · obtain rfl := Option.some.inj (hfield.symm.trans hfield')
      exact hfirst hfirst'
    · rw [hnone] at hfield
      cases hfield

/-- The search looks at or enters every place that is not shut and not overlooked. -/
theorem exists_arrive (hn : root.node? place = some n) (hopen : ¬ Shut root place)
    (hseen : ¬ Overlooked root place) :
    ∃ mode, walk.arrive .inside root place = some (n, mode) := by
  induction place using List.reverseRecOn generalizing n with
  | nil => exact ⟨.inside, by rw [Walk.arrive, Option.some.inj hn]⟩
  | append_singleton place k ih =>
    rw [SyntaxNode.node?_concat] at hn
    obtain ⟨m, hm, hchild⟩ := Option.bind_eq_some_iff.mp hn
    have hopen' : ¬ Shut root place := by
      rintro ⟨above, p, hencloses, hp⟩
      obtain ⟨j, rest, rfl⟩ := encloses_iff.mp hencloses
      exact hopen ⟨above, p, encloses_iff.mpr ⟨j, rest ++ [k], by simp⟩, hp⟩
    have hseen' : ¬ Overlooked root place := by
      rintro ⟨above, j, rest, p, field, hne, rfl, hp⟩
      exact hseen ⟨above, j, rest ++ [k], p, field, hne, by simp, hp⟩
    obtain ⟨mode, harrive⟩ := ih hm hopen' hseen'
    cases mode with
    | inside => exact ⟨.looked, Walk.arrive_concat.mpr ⟨m, _, harrive, hchild, rfl⟩⟩
    | looked =>
      have hne : place ≠ [] := by
        rintro rfl
        cases harrive
      have hclosed : m.kind ∉ closed := fun hkind =>
        hopen ⟨place, m, encloses_iff.mpr ⟨k, [], rfl⟩, hm, hkind⟩
      cases hfield : searchedField? m with
      | none =>
        have honward : walk.onward .looked m k = some .looked :=
          onward_looked_iff.mpr ⟨hclosed, Or.inr ⟨hfield, rfl⟩⟩
        exact ⟨.looked, Walk.arrive_concat.mpr ⟨m, _, harrive, hchild, honward⟩⟩
      | some field =>
        have hfirst : m.children.findIdx? (·.fills field) = some k := by
          by_contra hother
          exact hseen ⟨place, k, [], m, field, hne, rfl, hm, hfield, hother⟩
        have honward := onward_looked_iff.mpr ⟨hclosed, Or.inl ⟨field, hfield, hfirst, rfl⟩⟩
        exact ⟨.inside, Walk.arrive_concat.mpr ⟨m, _, harrive, hchild, honward⟩⟩

theorem BringsIn.mem_lookedAt_iff {literal : String} (h : BringsIn n literal)
    (hbodies : ClassBodies root) (hn : root.node? place = some n) (hne : place ≠ [])
    (hopen : ¬ Shut root place) : (place, n) ∈ lookedAt root ↔ ¬ Overlooked root place := by
  rw [mem_lookedAt]
  refine ⟨fun harrive => not_overlooked_of_arrive hbodies harrive, fun hseen => ?_⟩
  obtain ⟨mode, harrive⟩ := exists_arrive hn hopen hseen
  cases mode with
  | looked => exact harrive
  | inside =>
    have hother : "call_expression" ∉ innerKinds := by decide
    rcases kind_of_inside hbodies harrive with hnil | hkind
    · exact absurd hnil hne
    · exact absurd (h.kind ▸ hkind) hother

end Places

end Script

/-! ## Outlines -/

open Script

/-- **Calls are noted unless they are overlooked.** A call that brings in a module has one import,
unless it stands in a class outside the body or in the declaration of a function outside the
function. -/
theorem Workspace.calls_noted_unless_overlooked {w : Workspace} {given language : String}
    {f : SourceFile} {root : SyntaxNode}
    (hlanguage : languageOf? (Path.ofText given).extension = some language)
    (hscript : language ∈ ["javascript", "typescript"])
    (hfile : w.file (Path.ofText given) = .ok f) (htree : f.reading = .tree root)
    (hbodies : ClassBodies root) :
    ∃ o, w.outline given = .ok (some o) ∧ ∃ seen : List (List Nat × SyntaxNode),
      seen.Pairwise (fun x y => Before x.1 y.1) ∧
      (∀ x ∈ seen, root.node? x.1 = some x.2) ∧
      o.imports = seen.flatMap (fun x => ownImports x.2) ∧
      ∀ place n literal, BringsIn n literal → root.node? place = some n → place ≠ [] →
        ¬ Shut root place →
        ownImports n = [{ source := unquote literal, line := n.label.startLine }] ∧
        ((place, n) ∈ seen ↔ ¬ Overlooked root place) := by
  have hother : (language == "python") = false := by
    have hplain : ∀ l ∈ ["javascript", "typescript"], (l == "python") = false := by decide
    exact hplain language hscript
  have houtline := outline_of_tree hlanguage hfile htree
  rw [hother] at houtline
  refine ⟨_, houtline, lookedAt root, pairwise_lookedAt root, fun x hx => ?_,
    Script.imports_outlineOf _ _ root, fun place n literal h hn hne hopen => ?_⟩
  · exact Walk.node?_of_arrive (mem_lookedAt.mp hx)
  · exact ⟨h.ownImports_eq, h.mem_lookedAt_iff hbodies hn hne hopen⟩

namespace Heritage

open Redefined (nodeOf)

def callOf (literal : String) (line : Nat) : SyntaxNode :=
  nodeOf "call_expression" "" "" line line
    [nodeOf "identifier" "function" "require" line line [],
      nodeOf "arguments" "arguments" "" line line [nodeOf "string" "" literal line line []]]

def method : SyntaxNode :=
  nodeOf "method_definition" "" "" 2 2
    [nodeOf "property_identifier" "name" "f" 2 2 [],
      nodeOf "formal_parameters" "parameters" "" 2 2 [callOf "'./c'" 2]]

/-- A class with a call in its heritage and the method. -/
def root : SyntaxNode :=
  nodeOf "program" "" "" 1 3
    [nodeOf "class_declaration" "" "" 1 3
      [nodeOf "identifier" "name" "A" 1 1 [],
        nodeOf "class_heritage" "" "" 1 1 [callOf "'./b'" 1],
        nodeOf "class_body" "body" "" 1 3 [method]]]

def folder : PlainFolder where
  files := [("a.js", ⟨none, .tree root⟩)]

theorem language_eq : languageOf? (Path.ofText "/repo/a.js").extension = some "javascript" := by
  decide

theorem file_eq : folder.workspace.file (Path.ofText "/repo/a.js") = .ok ⟨none, .tree root⟩ := by
  have hpath : Path.ofText "/repo/a.js" = PlainFolder.repo.child "a.js" := by decide
  have hmem : ("a.js", ⟨none, .tree root⟩) ∈ folder.files := List.mem_cons_self
  exact hpath ▸ PlainFolder.file_eq hmem

theorem bringsIn_callOf (literal : String) (line : Nat) :
    BringsIn (callOf literal line) literal where
  kind := rfl
  function := ⟨nodeOf "identifier" "function" "require" line line [], rfl, rfl⟩
  argument := ⟨_, nodeOf "string" "" literal line line [], rfl, rfl, rfl⟩

theorem classBodies : ClassBodies root := by
  intro place n b hn
  have hall : ∀ v ∈ Walk.everywhere.visitsAt [] () root, v.node.kind ∈ classKinds →
      (v.node.inField? "body").all (·.kind == "class_body") = true := by decide +kernel
  intro hclass hb
  have hbody := Walk.forall_node? (P := fun n => n.kind ∈ classKinds →
    (n.inField? "body").all (·.kind == "class_body") = true) hall hn hclass
  rw [hb, Option.all_some] at hbody
  exact eq_of_beq hbody

theorem not_shut (place : List Nat) : ¬ Shut root place := by
  rintro ⟨above, m, -, hm, hclosed⟩
  have hall : ∀ v ∈ Walk.everywhere.visitsAt [] () root, v.node.kind ∉ closed := by decide +kernel
  exact Walk.forall_node? (P := fun n => n.kind ∉ closed) hall hm hclosed

end Heritage

section Classes

open Heritage

theorem Workspace.calls_noted_heritage :
    ∃ o, folder.workspace.outline "/repo/a.js" = .ok (some o) ∧
      ∃ seen : List (List Nat × SyntaxNode), seen.Pairwise (fun x y => Before x.1 y.1) ∧
        o.imports = seen.flatMap (fun x => ownImports x.2) ∧
        ([0, 2, 0, 1, 0], callOf "'./c'" 2) ∈ seen ∧ ([0, 1, 0], callOf "'./b'" 1) ∉ seen := by
  obtain ⟨o, ho, seen, horder, -, himports, hcalls⟩ :=
    calls_noted_unless_overlooked language_eq (by decide) file_eq rfl classBodies
  have hinside : walk.arrive .inside root [0, 2, 0, 1, 0] = some (callOf "'./c'" 2, .looked) := by
    rfl
  have hoverlooked : Overlooked root [0, 1, 0] :=
    ⟨[0], 1, [0], _, "body", by decide, rfl, rfl, by decide, by decide⟩
  refine ⟨o, ho, seen, horder, himports, ?_, fun h => ?_⟩
  · exact (hcalls _ _ _ (bringsIn_callOf _ _) rfl (by decide) (not_shut _)).2.mpr
      (not_overlooked_of_arrive classBodies hinside)
  · exact (hcalls _ _ _ (bringsIn_callOf _ _) rfl (by decide) (not_shut _)).2.mp h hoverlooked

/-- The call in the heritage of the class is not noted. -/
theorem Workspace.heritage_call_missed :
    ∃ o, folder.workspace.outline "/repo/a.js" = .ok (some o) ∧
      o.imports.map (·.source) = ["./c"] ∧ ¬ Shut root [0, 1, 0] ∧
      ∃ n, root.node? [0, 1, 0] = some n ∧ BringsIn n "'./b'" := by
  have houtline := outline_of_tree language_eq file_eq rfl
  refine ⟨_, houtline, ?_, not_shut _, _, rfl, bringsIn_callOf _ _⟩
  decide +kernel

end Classes

end CodeAtlas
