import SchemaGen.Decimal.Binary64
import SchemaGen.Members
import SchemaGen.Toml.Moment

/-!
# Values of settings files

What a settings file holds, and the tables that its lines build up. Lines may add to a table only in
the way in which it came about: below its header, by keys with dots, or not at all when it was written
inline. A table whose first entry has a certain name is no table but spells a moment.
-/

namespace SchemaGen.Toml

/-- How a table came about. -/
inductive Origin where
  /-- By the header of a table inside it. -/
  | implied
  /-- By a header of its own. -/
  | header
  /-- By a key with dots. -/
  | dotted
  /-- All at once, in braces. -/
  | inline
  deriving DecidableEq, Repr

/-- A value. -/
inductive Value where
  | text (value : String)
  | int (value : Int)
  | float (value : Binary64)
  | bool (value : Bool)
  /-- A date or a time in its usual spelling. -/
  | moment (text : String)
  | list (items : List Value)
  | table (origin : Origin) (entries : List (String × Value))
  /-- Tables under repeated headers, last one first. -/
  | tables (items : List (List (String × Value)))
  deriving Repr

/-- The entries of a table, in the order of their names' first mention. -/
abbrev Entries := Members Value

/-- A key: the tables on the way, and the name in the last of them. -/
structure Key where
  steps : List String
  name : String
  deriving DecidableEq, Repr

/-- The key one table further out. -/
def Key.below (step : String) (key : Key) : Key := ⟨step :: key.steps, key.name⟩

/-- The names from the outside in. -/
def Key.path (key : Key) : List String := key.steps ++ [key.name]

/-- Puts a value under a name in the table at the end of `steps`, which start from a table that came
about by `origin`. Tables that are not there are made; those that are there must have come about by
keys with dots, on the way also by headers further in. -/
def putDotted : Origin → List String → String → Value → Entries → Option Entries
  | origin, [], name, value, entries =>
    if origin = .dotted ∧ (entries.lookup name).isNone then some (Members.insert name value entries) else none
  | _, step :: rest, name, value, entries =>
    match entries.lookup step with
    | none => do
      let inner ← putDotted .dotted rest name value []
      return Members.insert step (.table .dotted inner) entries
    | some (.table origin inner) =>
      if origin = .dotted ∨ origin = .implied then do
        let inner ← putDotted origin rest name value inner
        return Members.insert step (.table origin inner) entries
      else none
    | some (.tables (last :: before)) => do
      let last ← putDotted .header rest name value last
      return Members.insert step (.tables (last :: before)) entries
    | some _ => none

/-- Puts a value under a key, which must be new. -/
def put (key : Key) (value : Value) (entries : Entries) : Option Entries :=
  if key.steps = [] then
    if (entries.lookup key.name).isNone then some (Members.insert key.name value entries) else none
  else putDotted .header key.steps key.name value entries

/-- Changes the table at the end of `steps`; tables that are not there are implied. -/
def changeAt (change : Entries → Option Entries) : List String → Entries → Option Entries
  | [], entries => change entries
  | step :: rest, entries =>
    match entries.lookup step with
    | none => do
      let inner ← changeAt change rest []
      return Members.insert step (.table .implied inner) entries
    | some (.table .inline _) => none
    | some (.table origin inner) => do
      let inner ← changeAt change rest inner
      return Members.insert step (.table origin inner) entries
    | some (.tables (last :: before)) => do
      let last ← changeAt change rest last
      return Members.insert step (.tables (last :: before)) entries
    | some _ => none

/-- Opens the table of a header, which may have been implied but not opened before; it counts as
mentioned only now. -/
def openTable (name : String) (entries : Entries) : Option Entries :=
  match entries.lookup name with
  | none => some (Members.insert name (.table .header []) entries)
  | some (.table .implied inner) =>
    some (Members.insert name (.table .header inner) (entries.filter fun e => e.1 != name))
  | some _ => none

/-- Opens one more of the tables under a repeated header. -/
def openNext (name : String) (entries : Entries) : Option Entries :=
  match entries.lookup name with
  | none => some (Members.insert name (.tables [[]]) entries)
  | some (.tables items) => some (Members.insert name (.tables ([] :: items)) entries)
  | some _ => none

/-- The name of the first entry of a table that spells a moment. -/
def momentName : String := "$__toml_private_datetime"

/-- The moment that the value of such an entry spells. -/
def Value.asMoment? : Value → Option String
  | .text s => (moment? .ofText s.toList).map String.ofList
  | _ => none

end SchemaGen.Toml
