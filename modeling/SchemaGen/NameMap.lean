/-!
# Maps in name order

Pairs of a name and a value, each name once, ordered by the names' code points. Inserting under a
name that is there replaces its value.

Results:
1. `get?_insert`: what a map holds after an insertion.
2. `mem_names_insert`: the names after an insertion.
-/

namespace SchemaGen

/-- Pairs in name order. -/
structure NameMap (α : Type) where
  pairs : List (String × α)
  deriving Repr, DecidableEq

namespace NameMap

variable {α : Type}

/-- The map without names. -/
def empty : NameMap α := ⟨[]⟩

/-- Puts a pair in its place among pairs in name order. -/
def insertPair (name : String) (value : α) : List (String × α) → List (String × α)
  | [] => [(name, value)]
  | (other, old) :: rest =>
    if name = other then (name, value) :: rest
    else if name < other then (name, value) :: (other, old) :: rest
    else (other, old) :: insertPair name value rest

/-- The value that the first pair with a name holds. -/
def lookupPair (name : String) : List (String × α) → Option α
  | [] => none
  | (other, value) :: rest => if name = other then some value else lookupPair name rest

/-- The map that holds `value` under `name`. -/
def insert (m : NameMap α) (name : String) (value : α) : NameMap α := ⟨insertPair name value m.pairs⟩

/-- The value under a name. -/
def get? (m : NameMap α) (name : String) : Option α := lookupPair name m.pairs

/-- Whether the map holds a name. -/
def contains (m : NameMap α) (name : String) : Bool := (m.get? name).isSome

/-- The names in order. -/
def names (m : NameMap α) : List String := m.pairs.map Prod.fst

/-- The values in the order of their names. -/
def values (m : NameMap α) : List α := m.pairs.map Prod.snd

/-- How many names the map holds. -/
def size (m : NameMap α) : Nat := m.pairs.length

/-- The map of a list of pairs; of equal names the last one counts. -/
def ofList (pairs : List (String × α)) : NameMap α :=
  pairs.foldl (fun m p => m.insert p.1 p.2) empty

theorem lookupPair_insertPair (name other : String) (value : α) (pairs : List (String × α)) :
    lookupPair other (insertPair name value pairs) =
      if other = name then some value else lookupPair other pairs := by
  induction pairs with
  | nil => simp [insertPair, lookupPair]
  | cons p rest ih =>
    obtain ⟨k, v⟩ := p
    unfold insertPair
    split
    · grind [lookupPair]
    · split
      · grind [lookupPair]
      · grind [lookupPair]

theorem get?_insert (m : NameMap α) (name other : String) (value : α) :
    (m.insert name value).get? other = if other = name then some value else m.get? other :=
  lookupPair_insertPair name other value m.pairs

theorem mem_map_insertPair (name other : String) (value : α) (pairs : List (String × α)) :
    other ∈ (insertPair name value pairs).map Prod.fst ↔ other = name ∨ other ∈ pairs.map Prod.fst := by
  induction pairs with
  | nil => simp [insertPair]
  | cons p rest ih =>
    obtain ⟨k, v⟩ := p
    unfold insertPair
    by_cases h₁ : name = k
    · simp [h₁]
    · by_cases h₂ : name < k
      · simp [h₁, h₂]
      · simp only [h₁, h₂, if_false, List.map_cons, List.mem_cons, ih]
        grind

theorem mem_names_insert (m : NameMap α) (name other : String) (value : α) :
    other ∈ (m.insert name value).names ↔ other = name ∨ other ∈ m.names :=
  mem_map_insertPair name other value m.pairs

end NameMap

end SchemaGen
