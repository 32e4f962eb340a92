/-!
# Tables

A table lists values under keys, in the order in which the keys were first put in.
-/

namespace CodeAtlas

/-- Values under keys, in order. -/
abbrev Table (κ α : Type) : Type := List (κ × α)

namespace Table

variable {κ α : Type} [BEq κ]

/-- The first value under a key. -/
def get? (t : Table κ α) (key : κ) : Option α := (t.find? (·.1 == key)).map (·.2)

/-- The value under a key, or another. -/
def getD (t : Table κ α) (key : κ) (otherwise : α) : α := (get? t key).getD otherwise

/-- The key is there. -/
def has (t : Table κ α) (key : κ) : Bool := t.any (·.1 == key)

/-- The value put under its key, at the end if it is new. -/
def put (t : Table κ α) (key : κ) (value : α) : Table κ α :=
  if has t key then t.map fun entry => if entry.1 == key then (entry.1, value) else entry
  else t ++ [(key, value)]

/-- The value put under its key, unless it is there. -/
def keep (t : Table κ α) (key : κ) (value : α) : Table κ α :=
  if has t key then t else t ++ [(key, value)]

/-- All values of another table put in. -/
def update (t more : Table κ α) : Table κ α := more.foldl (fun t entry => put t entry.1 entry.2) t

/-- The keys in order. -/
def keys (t : Table κ α) : List κ := t.map (·.1)

end Table

end CodeAtlas
