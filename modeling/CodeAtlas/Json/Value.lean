import CodeAtlas.Number.Computed
import CodeAtlas.Table
import CodeAtlas.Text.LetterCase
import CodeAtlas.Text.Part

/-!
# JSON values

The values that records are written as and that services answer with. Objects keep the order of
their members, and whole and real numbers are told apart.
-/

namespace CodeAtlas

/-- The values of JSON, whole and real numbers told apart. -/
inductive Json where
  | null
  | bool (b : Bool)
  | int (n : Int)
  | float (x : Float)
  | str (s : String)
  | arr (items : List Json)
  | obj (members : List (String × Json))
deriving Inhabited

/-- The members of an object. -/
abbrev Members : Type := Table String Json

namespace Json

/-- The amount as a value. -/
def ofAmount : Amount → Json
  | .whole n => .int n
  | .real x => .float x
  | .flag b => .bool b

/-- The computed number as a value. -/
def ofComputed : Computed → Json
  | .whole n => .int n
  | .real x => .float x
  | .broken _ => .null

/-- A natural number as a value. -/
def nat (n : Nat) : Json := .int n

/-- Texts as a list. -/
def strs (ss : List String) : Json := .arr (ss.map .str)

/-- The value of what may be missing. -/
def ofOption {α : Type} (write : α → Json) : Option α → Json
  | some a => write a
  | none => .null

/-- The member of a name. -/
def get? (name : String) : Json → Option Json
  | .obj ms => Table.get? ms name
  | _ => none

/-- The first item of a list. -/
def first? : Json → Option Json
  | .arr (item :: _) => some item
  | _ => none

/-- The text, if it is one. -/
def str? : Json → Option String
  | .str s => some s
  | _ => none

/-- The integer, if it is one; a truth value counts as one. -/
def int? : Json → Option Int
  | .int n => some n
  | .bool b => some (if b then 1 else 0)
  | _ => none

/-- The number, if it is one. -/
def amount? : Json → Option Amount
  | .int n => some (.whole n)
  | .float x => some (.real x)
  | .bool b => some (.flag b)
  | _ => none

/-- The truth value, if it is one. -/
def bool? : Json → Option Bool
  | .bool b => some b
  | _ => none

/-- The items of a list. -/
def items? : Json → Option (List Json)
  | .arr items => some items
  | _ => none

/-- The members of an object, if it is one. -/
def members? : Json → Option Members
  | .obj ms => some ms
  | _ => none

/-- Nothing, no, zero, and empty texts, lists and objects count as absent. -/
def isVoid : Json → Bool
  | .null => true
  | .bool b => !b
  | .int n => n == 0
  | .float x => x == 0
  | .str s => s.isEmpty
  | .arr items => items.isEmpty
  | .obj ms => ms.isEmpty

/-- The text, if it is one and not empty. -/
def filledStr? : Json → Option String
  | .str s => if s.isEmpty then none else some s
  | _ => none

end Json

/-! ## Records

Fields are named in words with underscores between them and written in camel case. -/

/-- The name with capitals for underscores. -/
def camelCase (name : String) : String :=
  match Text.splitOn '_' name with
  | [] => ""
  | head :: rest => Text.joinWith "" (head :: rest.map Text.title)

/-- An object with its names in camel case. -/
def Json.record (fields : Members) : Json :=
  .obj (fields.map fun (name, value) => (camelCase name, value))

/-- The fields of a kind of record; one without a value has to be given. -/
abbrev Form : Type := List (String × Option Json)

/-- Why a form cannot be filled. -/
inductive FormError where
  | unknown (name : String)
  | missing (name : String)

namespace Form

/-- The fields with the given values, or with their defaults. -/
def entries (form : Form) (given : Members) : Except FormError Members :=
  form.mapM fun (name, fallback) =>
    match (Table.get? given name).or fallback with
    | some value => .ok (name, value)
    | none => .error (.missing name)

/-- The record with the given values. -/
def fill (form : Form) (given : Members) : Except FormError Json :=
  match given.find? fun (name, _) => !form.any (·.1 == name) with
  | some (name, _) => .error (.unknown name)
  | none => (form.entries given).map Json.record

end Form

end CodeAtlas
