import SchemaGen.Decimal.Notation
import SchemaGen.Members
import SchemaGen.Path
import SchemaGen.Toml.Value

/-!
# Values of settings

What a value of the settings is depends on what is asked for: a number serves as a text, a text as a
number. Names are taken in lower case.
-/

namespace SchemaGen.Program

/-- A value of the settings. -/
inductive Setting where
  /-- What stands in a list at a place that nothing was put to. -/
  | blank
  | bool (value : Bool)
  | int (value : Int)
  | float (value : Binary64)
  | text (value : String)
  | list (items : List Setting)
  | table (entries : List (String × Setting))
  deriving Repr

/-- Values by their names. -/
abbrev Layer := Members Setting

/-- A text in lower case, as far as names of settings go: only their ASCII letters have cases. -/
def lower (s : String) : String := String.ofList (s.toList.map Char.toLower)

namespace Setting

mutual

/-- A value of a settings file; none if a table in it that should spell a moment spells none. -/
def ofToml? : Toml.Value → Option Setting
  | .text s => some (text s)
  | .moment s => some (text s)
  | .int i => some (int i)
  | .float x => some (float x)
  | .bool b => some (bool b)
  | .list items => (ofTomlList? items).map list
  | .table _ entries => ofTomlTable? entries
  | .tables items => (ofTomlTables? items).map fun tables => list tables.reverse

/-- The values of a list. -/
def ofTomlList? : List Toml.Value → Option (List Setting)
  | [] => some []
  | v :: rest => do return (← ofToml? v) :: (← ofTomlList? rest)

/-- A table, or the moment that it spells. -/
def ofTomlTable? : List (String × Toml.Value) → Option Setting
  | [] => some (table [])
  | (name, v) :: rest =>
    if name = Toml.momentName then v.asMoment?.map text
    else do return table ((name, ← ofToml? v) :: (← ofTomlEntries? rest))

/-- The entries of a table. -/
def ofTomlEntries? : List (String × Toml.Value) → Option Layer
  | [] => some []
  | (name, v) :: rest => do return (name, ← ofToml? v) :: (← ofTomlEntries? rest)

/-- The tables under a repeated header. -/
def ofTomlTables? : List (List (String × Toml.Value)) → Option (List Setting)
  | [] => some []
  | entries :: rest => do return (← ofTomlTable? entries) :: (← ofTomlTables? rest)

end

/-- A number as the nearest integer, a half away from zero, within 64 bits; what is no number is
zero. -/
def roundToWord : Binary64 → Int
  | .nan => 0
  | .infinite negative => if negative then Decimal.minSigned else Decimal.maxSigned
  | .finite negative m e =>
    let (n, d) := scale 2 e m 1
    let size := (2 * n + d) / (2 * d)
    let rounded := if negative then -(size : Int) else size
    if Decimal.fitsSigned rounded then rounded
    else if negative then Decimal.minSigned else Decimal.maxSigned

/-- An integer of 64 bits. -/
def word? (s : String) : Option Int := do
  let i ← Decimal.integer? s.toList
  if Decimal.fitsSigned i then some i else none

/-- The words for yes. -/
def isYes (s : String) : Bool := ["true", "on", "yes"].contains (lower s)

/-- The words for no. -/
def isNo (s : String) : Bool := ["false", "off", "no"].contains (lower s)

/-- The value as a text. -/
def asText? : Setting → Option String
  | text s => some s
  | int i => some (toString i)
  | float x => some (Decimal.positional x)
  | bool b => some (if b then "true" else "false")
  | _ => none

/-- The value as an integer. -/
def asInt? : Setting → Option Int
  | int i => some i
  | text s => if isYes s then some 1 else if isNo s then some 0 else word? s
  | float x => some (roundToWord x)
  | bool b => some (if b then 1 else 0)
  | _ => none

/-- The value as a truth value. -/
def asBool? : Setting → Option Bool
  | bool b => some b
  | int i => some (i != 0)
  | float (.finite _ 0 _) => some false
  | float _ => some true
  | text s =>
    if s = "1" ∨ isYes s then some true else if s = "0" ∨ isNo s then some false else none
  | _ => none

/-- Whether the value can hold fields: by their names in a table, by their places in a list. -/
def isRecord : Setting → Bool
  | table _ => true
  | list _ => true
  | _ => false

/-- A field, by its name or its place. -/
def field? (s : Setting) (place : Nat) (name : String) : Option Setting :=
  match s with
  | table entries => entries.lookup name
  | list items => items[place]?
  | _ => none

/-- A field as it is asked for, or the given value if it is not set. -/
def fieldAs {α : Type} (s : Setting) (place : Nat) (name : String) (read : Setting → Option α) (given : α) :
    Option α :=
  match s.field? place name with
  | none => some given
  | some value => read value

/-- A value that may be left blank, and otherwise what `read` makes of it. -/
def optional {α : Type} (read : Setting → Option α) : Setting → Option (Option α)
  | blank => some none
  | value => (read value).map some

/-- A field that is a path. -/
def pathField (s : Setting) (place : Nat) (name : String) (given : Path) : Option Path :=
  s.fieldAs place name (fun v => v.asText?.map Path.mk) given

/-- The value that a variable of the environment spells. -/
def ofVariable (s : String) : Setting :=
  if lower s = "true" then bool true
  else if lower s = "false" then bool false
  else match word? s with
    | some i => int i
    | none =>
      match Decimal.number? s.toList with
      | some x => float x
      | none => text s

end Setting

end SchemaGen.Program
