import SchemaGen.Program.SettingPath

/-!
# Layers of settings

Settings come in layers, each a tree of values. A later layer is laid over an earlier one: tables are
joined entry by entry and any other value replaces what was there. The names at the top of a layer are
paths, which make way for themselves: what is no table or list where they lead through gives place to
one.
-/

namespace SchemaGen.Program

namespace Setting

/-- The entries of a table; other values have none. -/
def entries : Setting → Layer
  | table entries => entries
  | _ => []

/-- The members of a list; other values have none. -/
def items : Setting → List Setting
  | list items => items
  | _ => []

mutual

/-- A value laid over the one that is there. -/
def laidOver : (value old : Setting) → Setting
  | table entries, old => table (laidOverAll entries old.entries)
  | value, _ => value

/-- Entries laid over those that are there. -/
def laidOverAll : (entries : List (String × Setting)) → (base : Layer) → Layer
  | [], base => base
  | (name, value) :: rest, base =>
    let value := laidOver value ((base.lookup (lower name)).getD blank)
    laidOverAll rest (Members.insert (lower name) value base)

end

/-- A list with blanks put in until it has a place, at its end or, for a place that counts from the end,
at its start; and the place as it counts from the start. -/
def reach (items : List Setting) (index : Int) : List Setting × Nat :=
  if index < 0 then
    (List.replicate (index.natAbs - items.length) blank ++ items, items.length - index.natAbs)
  else (items ++ List.replicate (index.toNat + 1 - items.length) blank, index.toNat)

/-- The member of a list at a place. -/
def item? (items : List Setting) (index : Int) : Option Setting :=
  if index < 0 then if index.natAbs ≤ items.length then items[items.length - index.natAbs]? else none
  else items[index.toNat]?

/-- Lays a value over the one that steps lead to. -/
def assignAt (value : Setting) : List Step → Setting → Setting
  | [], old => value.laidOver old
  | .name name :: rest, old =>
    table (Members.insert name (assignAt value rest ((old.entries.lookup name).getD blank)) old.entries)
  | .place index :: rest, old =>
    let (items, place) := reach old.items index
    list (items.set place (assignAt value rest ((items[place]?).getD blank)))

/-- The value that steps lead to. -/
def find? : List Step → Setting → Option Setting
  | [], value => some value
  | .name name :: rest, value => (value.entries.lookup name).bind (find? rest)
  | .place index :: rest, value => (item? value.items index).bind (find? rest)

end Setting

namespace Layer

/-- Lays a value over the one that a path leads to. -/
def assign (base : Layer) (path : String) (value : Setting) : Layer :=
  (value.assignAt (stepsOf path) (.table base)).entries

/-- Lays a layer over another. -/
def overlay (base : Layer) (layer : Layer) : Layer :=
  layer.foldl (fun base entry => base.assign entry.1 entry.2) base

end Layer

end SchemaGen.Program
