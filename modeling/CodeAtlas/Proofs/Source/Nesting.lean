import CodeAtlas.Proofs.Graph.EdgeKey
import CodeAtlas.Source.Outline

/-!
# Definitions inside definitions

An outline looks for the definition around a new one by the end of its id, from the last entry back.
What was entered since has a longer name, so the search ends at that definition.

* **`Definition.entities_enterAll`**: definitions that are entered are so noted.
* **`Definition.Laid.chained`**: the id and parent of a record are those that its place tells.
-/

namespace CodeAtlas

/-- A definition with those inside it, and its place in the tree. -/
inductive Definition where
  | mk (kind name : String) (place : List Nat) (lines : SyntaxLabel) (inner : List Definition)

namespace Definition

def kind : Definition → String
  | .mk kind _ _ _ _ => kind

def name : Definition → String
  | .mk _ name _ _ _ => name

def place : Definition → List Nat
  | .mk _ _ place _ _ => place

def lines : Definition → SyntaxLabel
  | .mk _ _ _ lines _ => lines

def inner : Definition → List Definition
  | .mk _ _ _ _ inner => inner

mutual

def enter (scope : List String) : Definition → Outline → Outline
  | .mk kind name _ lines inner, o =>
    enterAll (scope ++ [name]) inner (o.enter kind name lines scope)

def enterAll (scope : List String) : List Definition → Outline → Outline
  | [], o => o
  | d :: rest, o => enterAll scope rest (enter scope d o)

end

mutual

def flat : Definition → List Definition
  | .mk kind name place lines inner => .mk kind name place lines inner :: flatAll inner

def flatAll : List Definition → List Definition
  | [] => []
  | d :: rest => flat d ++ flatAll rest

end

/-- The record of a definition in a scope under the id of the one around it. -/
def entity (scope : List String) (parent : Option String) (d : Definition) : Entity where
  id := d.kind ++ ":" ++ dotted (scope ++ [d.name])
  kind := d.kind
  name := d.name
  startLine := d.lines.startLine
  endLine := d.lines.endLine
  parentId := parent

mutual

/-- The record of a definition under the id around it, then those inside. -/
def records (scope : List String) (parent : Option String) :
    Definition → List (Definition × Entity)
  | .mk kind name place lines inner =>
    (.mk kind name place lines inner, entity scope parent (.mk kind name place lines inner)) ::
      recordsAll (scope ++ [name])
        (some (entity scope parent (.mk kind name place lines inner)).id) inner

def recordsAll (scope : List String) (parent : Option String) :
    List Definition → List (Definition × Entity)
  | [] => []
  | d :: rest => records scope parent d ++ recordsAll scope parent rest

end

theorem enter_eq (scope : List String) (d : Definition) (o : Outline) :
    d.enter scope o =
      enterAll (scope ++ [d.name]) d.inner (o.enter d.kind d.name d.lines scope) := by
  cases d
  rfl

theorem flat_eq (d : Definition) : d.flat = d :: flatAll d.inner := by
  cases d
  rfl

theorem records_eq (scope : List String) (parent : Option String) (d : Definition) :
    d.records scope parent = (d, d.entity scope parent) ::
      recordsAll (scope ++ [d.name]) (some (d.entity scope parent).id) d.inner := by
  cases d
  rfl

end Definition

/-! ## The search for the definition around -/

section Search

variable {kind : String} {scope rest : List String}

theorem colon_notMem_dotted {names : List String} (h : ∀ n ∈ names, ':' ∉ n.toList) :
    ':' ∉ (dotted names).toList := by
  induction names with
  | nil => simp [dotted, Text.joinWith]
  | cons n names ih =>
    obtain ⟨hn, hnames⟩ := List.forall_mem_cons.mp h
    cases names with
    | nil => simpa [dotted, Text.joinWith] using hn
    | cons m names =>
      have hcons : dotted (n :: m :: names) = n ++ "." ++ dotted (m :: names) :=
        String.intercalate_cons_of_ne_nil (List.cons_ne_nil m names)
      rw [hcons]
      simpa [hn] using ih hnames

theorem endsWith_colon_iff (hkind : ':' ∉ kind.toList) {qualified : String}
    (hq : ':' ∉ qualified.toList) (wanted : String) :
    Text.endsWith (kind ++ ":" ++ qualified) (":" ++ wanted) = true ↔ qualified = wanted := by
  have hid : (kind ++ ":" ++ qualified).toList = kind.toList ++ ':' :: qualified.toList := by simp
  have hend : (":" ++ wanted).toList = ':' :: wanted.toList := by simp
  rw [Text.endsWith, List.isSuffixOf_iff_suffix, hid, hend]
  constructor
  · rintro ⟨front, h⟩
    rcases (char_cut_first hkind).mp h.symm with ⟨-, heq⟩ | ⟨w, -, heq⟩
    · exact String.toList_inj.mp heq
    · exact absurd (heq ▸ by simp) hq
  · rintro rfl
    exact ⟨kind.toList, rfl⟩

theorem dotted_append_ne (hscope : scope ≠ []) (hrest : rest ≠ []) :
    dotted (scope ++ rest) ≠ dotted scope := by
  intro h
  have happend : dotted (scope ++ rest) = dotted scope ++ "." ++ dotted rest :=
    String.intercalate_append_of_ne_nil hscope hrest
  have hdot : ".".length = 1 := rfl
  have hlength := congrArg String.length (happend.symm.trans h)
  rw [String.length_append, String.length_append, hdot] at hlength
  omega

end Search

namespace Outline

variable {o : Outline} {scope : List String}

/-- The id of the definition around what stands in the scope, as it is searched for. -/
def parentIn (o : Outline) (scope : List String) : Option String :=
  if scope.isEmpty then none else o.latest? (dotted scope)

theorem parentIn_congr {o' : Outline} (h : o'.entities = o.entities) (scope : List String) :
    o'.parentIn scope = o.parentIn scope := by
  rw [parentIn, parentIn, latest?, latest?, h]

theorem parentIn_append {o' : Outline} {more : List Entity} (h : o'.entities = o.entities ++ more)
    (hmore : scope ≠ [] → ∀ e ∈ more, Text.endsWith e.id (":" ++ dotted scope) = false) :
    o'.parentIn scope = o.parentIn scope := by
  unfold parentIn
  split
  · rfl
  · rename_i hscope
    have hne : scope ≠ [] := fun he => hscope (List.isEmpty_iff.mpr he)
    have hnone : more.reverse.find? (fun e => Text.endsWith e.id (":" ++ dotted scope)) = none :=
      List.find?_eq_none.mpr fun e he => Bool.eq_false_iff.mp (hmore hne e (List.mem_reverse.mp he))
    rw [latest?, latest?, h, List.reverse_append, List.find?_append, hnone, Option.none_or]

theorem parentIn_last {o' : Outline} {e : Entity} (h : o'.entities = o.entities ++ [e])
    (hscope : scope ≠ []) (he : Text.endsWith e.id (":" ++ dotted scope) = true) :
    o'.parentIn scope = some e.id := by
  have hempty : ¬ scope.isEmpty = true := fun h => hscope (List.isEmpty_iff.mp h)
  rw [parentIn, if_neg hempty, latest?, h, List.reverse_append, List.reverse_singleton,
    List.singleton_append, List.find?_cons, he]
  rfl

end Outline

/-! ## Definitions entered -/

namespace Definition

/-- The name can be told apart from the kind before it and is not left out. -/
structure Named (d : Definition) : Prop where
  kind : ':' ∉ d.kind.toList
  name : ':' ∉ d.name.toList
  ne_empty : d.name ≠ ""

mutual

theorem id_of_mem_records {d : Definition} {scope : List String} {parent : Option String}
    (hd : ∀ x ∈ d.flat, x.Named) {x : Definition × Entity} (hx : x ∈ d.records scope parent) :
    ∃ kind rest, rest ≠ [] ∧ ':' ∉ kind.toList ∧ (∀ n ∈ rest, ':' ∉ n.toList) ∧
      x.2.id = kind ++ ":" ++ dotted (scope ++ rest) := by
  match d with
  | .mk kind name place lines inner =>
    rw [flat, List.forall_mem_cons] at hd
    rw [records] at hx
    rcases List.mem_cons.mp hx with rfl | hx
    · exact ⟨kind, [name], List.cons_ne_nil _ _, hd.1.kind,
        List.forall_mem_singleton.mpr hd.1.name, rfl⟩
    · obtain ⟨k, rest, -, hk, hrest, hid⟩ := id_of_mem_recordsAll hd.2 hx
      refine ⟨k, name :: rest, List.cons_ne_nil _ _, hk,
        List.forall_mem_cons.mpr ⟨hd.1.name, hrest⟩, ?_⟩
      rw [hid, List.append_assoc, List.singleton_append]

theorem id_of_mem_recordsAll {ds : List Definition} {scope : List String} {parent : Option String}
    (hds : ∀ x ∈ flatAll ds, x.Named) {x : Definition × Entity}
    (hx : x ∈ recordsAll scope parent ds) :
    ∃ kind rest, rest ≠ [] ∧ ':' ∉ kind.toList ∧ (∀ n ∈ rest, ':' ∉ n.toList) ∧
      x.2.id = kind ++ ":" ++ dotted (scope ++ rest) := by
  match ds with
  | [] => exact absurd hx List.not_mem_nil
  | d :: ds =>
    rw [flatAll, List.forall_mem_append] at hds
    rw [recordsAll] at hx
    rcases List.mem_append.mp hx with hx | hx
    · exact id_of_mem_records hds.1 hx
    · exact id_of_mem_recordsAll hds.2 hx

end

theorem entities_outline_enter (o : Outline) (d : Definition) (hname : d.name ≠ "")
    (scope : List String) :
    (o.enter d.kind d.name d.lines scope).entities =
      o.entities ++ [d.entity scope (o.parentIn scope)] := by
  have hempty : ¬ d.name.isEmpty = true := by simpa using hname
  rw [Outline.enter, if_neg hempty]
  rfl

mutual

/-- **A definition** is noted under the one around it, and so is what is inside it. -/
theorem entities_enter (d : Definition) {scope : List String}
    (hscope : ∀ n ∈ scope, ':' ∉ n.toList) (hd : ∀ x ∈ d.flat, x.Named) (o : Outline) :
    (d.enter scope o).entities =
      o.entities ++ (d.records scope (o.parentIn scope)).map (·.2) := by
  match d with
  | .mk kind name place lines inner =>
    rw [flat, List.forall_mem_cons] at hd
    obtain ⟨hnamed, hinner⟩ := hd
    have hscope' : ∀ n ∈ scope ++ [name], ':' ∉ n.toList :=
      List.forall_mem_append.mpr ⟨hscope, List.forall_mem_singleton.mpr hnamed.name⟩
    have hentered := entities_outline_enter o _ hnamed.ne_empty scope
    -- the definition itself is the last entry, so the search from inside it ends there
    have hlast := Outline.parentIn_last hentered (List.append_ne_nil_of_right_ne_nil scope
      (List.cons_ne_nil name []))
      ((endsWith_colon_iff hnamed.kind (colon_notMem_dotted hscope') _).mpr rfl)
    rw [enter_eq, records_eq, List.map_cons]
    exact (entities_enterAll inner hscope' hinner _).trans (by
      rw [hlast, hentered, List.append_assoc]
      rfl)

/-- **Definitions** are noted under the one around them, and so is what is inside them. -/
theorem entities_enterAll (ds : List Definition) {scope : List String}
    (hscope : ∀ n ∈ scope, ':' ∉ n.toList) (hds : ∀ x ∈ flatAll ds, x.Named) (o : Outline) :
    (enterAll scope ds o).entities =
      o.entities ++ (recordsAll scope (o.parentIn scope) ds).map (·.2) := by
  match ds with
  | [] => rw [enterAll, recordsAll, List.map_nil, List.append_nil]
  | d :: ds =>
    rw [flatAll, List.forall_mem_append] at hds
    have hentered := entities_enter d hscope hds.1 o
    -- what was entered since is inside, so the search still ends at the same definition
    have hsame := Outline.parentIn_append hentered fun hne e he => by
      obtain ⟨x, hx, rfl⟩ := List.mem_map.mp he
      obtain ⟨k, rest, hrest, hk, hcolon, hid⟩ := id_of_mem_records hds.1 hx
      have hall := colon_notMem_dotted (List.forall_mem_append.mpr ⟨hscope, hcolon⟩)
      rw [Bool.eq_false_iff, hid]
      exact fun h => dotted_append_ne hne hrest ((endsWith_colon_iff hk hall _).mp h)
    rw [enterAll, entities_enterAll ds hscope hds.2, hentered, hsame, recordsAll, List.map_append,
      List.append_assoc]

end

theorem entities_outline_enter_congr {o o' : Outline} (h : o'.entities = o.entities)
    (kind name : String) (lines : SyntaxLabel) (scope : List String) :
    (o'.enter kind name lines scope).entities = (o.enter kind name lines scope).entities := by
  have hparent := Outline.parentIn_congr h scope
  unfold Outline.parentIn at hparent
  unfold Outline.enter
  split
  · exact h
  · rw [h, hparent]

mutual

theorem entities_enter_congr (d : Definition) (scope : List String) {o o' : Outline}
    (h : o'.entities = o.entities) : (d.enter scope o').entities = (d.enter scope o).entities := by
  match d with
  | .mk kind name place lines inner =>
    rw [enter, enter]
    exact entities_enterAll_congr inner _ (entities_outline_enter_congr h kind name lines scope)

theorem entities_enterAll_congr (ds : List Definition) (scope : List String) {o o' : Outline}
    (h : o'.entities = o.entities) :
    (enterAll scope ds o').entities = (enterAll scope ds o).entities := by
  match ds with
  | [] => exact h
  | d :: ds =>
    rw [enterAll, enterAll]
    exact entities_enterAll_congr ds scope (entities_enter_congr d scope h)

end

theorem enterAll_append (scope : List String) (ds ds' : List Definition) (o : Outline) :
    enterAll scope (ds ++ ds') o = enterAll scope ds' (enterAll scope ds o) := by
  induction ds generalizing o with
  | nil => rfl
  | cons d ds ih => exact ih _

end Definition

/-! ## Places in a tree -/

/-- The node at `b` is inside the node at `a`. -/
def encloses (a b : List Nat) : Bool := a.isPrefixOf b && a != b

/-- The node at `a` comes before the node at `b` and neither is inside the other. -/
def LeftOf (a b : List Nat) : Prop :=
  ∃ w m n a' b', a = w ++ m :: a' ∧ b = w ++ n :: b' ∧ m < n

section Places

variable {a b c : List Nat}

theorem encloses_iff : encloses a b = true ↔ ∃ m rest, b = a ++ m :: rest := by
  rw [encloses, Bool.and_eq_true, List.isPrefixOf_iff_prefix, bne_iff_ne]
  constructor
  · rintro ⟨⟨rest, rfl⟩, hne⟩
    cases rest with
    | nil => exact absurd (List.append_nil a).symm hne
    | cons m rest => exact ⟨m, rest, rfl⟩
  · rintro ⟨m, rest, rfl⟩
    exact ⟨List.prefix_append _ _, by simp⟩

/-- One node to the left of another encloses nothing in it, and the other way round. -/
theorem LeftOf.not_common (h : LeftOf a b) (ha : a <+: c) (hb : b <+: c) : False := by
  obtain ⟨w, m, n, a', b', rfl, rfl, hlt⟩ := h
  obtain ⟨s, rfl⟩ := ha
  obtain ⟨s', hs⟩ := hb
  rw [List.append_assoc, List.append_assoc, List.append_cancel_left_eq, List.cons_append,
    List.cons_append, List.cons.injEq] at hs
  omega

theorem encloses_isPrefix (h : encloses a b = true) : a <+: b := by
  obtain ⟨m, rest, rfl⟩ := encloses_iff.mp h
  exact List.prefix_append _ _

theorem LeftOf.encloses_eq_false (h : LeftOf a b) : encloses a b = false :=
  Bool.eq_false_iff.mpr fun he => h.not_common (encloses_isPrefix he) (List.prefix_refl b)

theorem LeftOf.encloses_eq_false_left (h : LeftOf a b) : encloses b a = false :=
  Bool.eq_false_iff.mpr fun he => h.not_common (List.prefix_refl a) (encloses_isPrefix he)

theorem encloses_asymm (h : encloses a b = true) : encloses b a = false := by
  obtain ⟨m, rest, rfl⟩ := encloses_iff.mp h
  refine Bool.eq_false_iff.mpr fun he => ?_
  have hlength := (encloses_isPrefix he).length_le
  rw [List.length_append, List.length_cons] at hlength
  omega

end Places

namespace Definition

/-- The definitions are nested as their places are. -/
inductive Laid : List Definition → Prop
  | nil : Laid []
  | cons {d : Definition} {rest : List Definition}
      (inside : ∀ x ∈ flatAll d.inner, encloses d.place x.place = true) (inner : Laid d.inner)
      (apart : ∀ x ∈ d.flat, ∀ y ∈ flatAll rest, LeftOf x.place y.place) (after : Laid rest) :
      Laid (d :: rest)

/-- Each definition comes before those that its place encloses and those to the right. -/
theorem Laid.pairwise {ds : List Definition} (h : Laid ds) :
    (flatAll ds).Pairwise fun x y =>
      encloses x.place y.place = true ∨ LeftOf x.place y.place := by
  induction h with
  | nil => exact .nil
  | @cons d rest inside inner apart after ihinner ihafter =>
    rw [flatAll, List.pairwise_append]
    refine ⟨?_, ihafter, fun x hx y hy => Or.inr (apart x hx y hy)⟩
    rw [flat_eq, List.pairwise_cons]
    exact ⟨fun x hx => Or.inl (inside x hx), ihinner⟩

/-! ## What the records say -/

mutual

theorem map_fst_records (d : Definition) (scope : List String) (parent : Option String) :
    (d.records scope parent).map (·.1) = d.flat := by
  match d with
  | .mk kind name place lines inner =>
    rw [flat, records, List.map_cons, map_fst_recordsAll]

theorem map_fst_recordsAll (ds : List Definition) (scope : List String) (parent : Option String) :
    (recordsAll scope parent ds).map (·.1) = flatAll ds := by
  match ds with
  | [] => rfl
  | d :: ds =>
    rw [flatAll, recordsAll, List.map_append, map_fst_records, map_fst_recordsAll]

end

def around (d : Definition) (before : List (Definition × Entity)) : List (Definition × Entity) :=
  before.filter fun x => encloses x.1.place d.place

/-- The names of those that enclose the definition stand before its own, the last as its parent. -/
structure RecordedBy (d : Definition) (e : Entity) (before : List (Definition × Entity)) :
    Prop where
  kind : e.kind = d.kind
  name : e.name = d.name
  startLine : e.startLine = d.lines.startLine
  endLine : e.endLine = d.lines.endLine
  id : e.id = d.kind ++ ":" ++ dotted ((d.around before).map (·.1.name) ++ [d.name])
  parentId : e.parentId = (d.around before).getLast?.map (·.2.id)

def Chained (before : List (Definition × Entity)) : List (Definition × Entity) → Prop
  | [] => True
  | x :: xs => x.1.RecordedBy x.2 before ∧ Chained (before ++ [x]) xs

theorem chained_append {before xs ys : List (Definition × Entity)} :
    Chained before (xs ++ ys) ↔ Chained before xs ∧ Chained (before ++ xs) ys := by
  induction xs generalizing before with
  | nil => simp [Chained]
  | cons x xs ih => simp [Chained, ih, and_assoc]

theorem recordedBy_of_chained {front back before : List (Definition × Entity)} {d : Definition}
    {e : Entity} (h : Chained before (front ++ (d, e) :: back)) :
    d.RecordedBy e (before ++ front) :=
  (chained_append.mp h).2.1

theorem Chained.exists_recordedBy {before xs : List (Definition × Entity)} (h : Chained before xs)
    {x : Definition × Entity} (hx : x ∈ xs) : ∃ front, x.1.RecordedBy x.2 (before ++ front) := by
  obtain ⟨front, back, rfl⟩ := List.append_of_mem hx
  exact ⟨front, recordedBy_of_chained h⟩

namespace Laid

variable {ds : List Definition} {before : List (Definition × Entity)} {scope : List String}
  {parent : Option String}

theorem around_eq_nil {d : Definition} (h : ∀ x ∈ before, LeftOf x.1.place d.place) :
    d.around before = [] :=
  List.filter_eq_nil_iff.mpr fun x hx => Bool.eq_false_iff.mp (h x hx).encloses_eq_false

/-- Definitions are recorded rightly under those around them. -/
theorem chained (h : Laid ds) {outer : List (Definition × Entity)}
    (hnames : outer.map (·.1.name) = scope) (hlast : outer.getLast?.map (·.2.id) = parent)
    (haround : ∀ d ∈ flatAll ds, d.around before = outer) :
    Chained before (recordsAll scope parent ds) := by
  induction h generalizing before outer scope parent with
  | nil => trivial
  | @cons d rest inside inner apart after ihinner ihafter =>
    rw [flatAll, flat_eq, List.forall_mem_append, List.forall_mem_cons] at haround
    obtain ⟨⟨hd, hinner⟩, hrest⟩ := haround
    rw [recordsAll, chained_append]
    constructor
    · rw [records_eq]
      refine ⟨⟨rfl, rfl, rfl, rfl, ?_, ?_⟩, ?_⟩
      · rw [hd, hnames]
        rfl
      · rw [hd, hlast]
        rfl
      · -- inside the definition it is the innermost of those around
        have hinside : ∀ x ∈ flatAll d.inner,
            x.around (before ++ [(d, d.entity scope parent)]) =
              outer ++ [(d, d.entity scope parent)] := by
          intro x hx
          rw [around, List.filter_append, ← around, hinner x hx,
            List.filter_singleton, inside x hx]
          rfl
        exact ihinner (by rw [List.map_append, hnames]; rfl) (by rw [List.getLast?_concat]; rfl)
          hinside
    · -- behind the definition nothing of it is around
      have hbehind : ∀ y ∈ flatAll rest, y.around (before ++ d.records scope parent) = outer := by
        intro y hy
        have hleft : ∀ x ∈ d.records scope parent, LeftOf x.1.place y.place := fun x hx =>
          apart x.1 (map_fst_records d scope parent ▸ List.mem_map_of_mem hx) y hy
        rw [around, List.filter_append, ← around, ← around, hrest y hy, around_eq_nil hleft,
          List.append_nil]
      exact ihafter hnames hlast hbehind

theorem pairwise_recordsAll (h : Laid ds) (scope : List String) (parent : Option String) :
    (recordsAll scope parent ds).Pairwise fun x y =>
      encloses x.1.place y.1.place = true ∨ LeftOf x.1.place y.1.place := by
  have hflat := h.pairwise
  rwa [← map_fst_recordsAll ds scope parent, List.pairwise_map] at hflat

/-- Those around a definition are around each other. -/
theorem pairwise_around
    (h : before.Pairwise fun x y =>
      encloses x.1.place y.1.place = true ∨ LeftOf x.1.place y.1.place) (d : Definition) :
    (d.around before).Pairwise fun x y => encloses x.1.place y.1.place = true := by
  refine (h.filter _).imp_of_mem fun {x y} hx hy hor => ?_
  have hx' := encloses_isPrefix (List.mem_filter.mp hx).2
  have hy' := encloses_isPrefix (List.mem_filter.mp hy).2
  exact hor.resolve_right fun hleft => hleft.not_common hx' hy'

end Laid

end Definition

end CodeAtlas
