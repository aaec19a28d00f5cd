import SchemaGen.Model.Catalog
import SchemaGen.Text.Lines

/-!
# Selections

What a client asks for when it wants a whole entity: every attribute, and of an attribute that
references an entity the selection of that entity. Where a path of references comes back to an entity
that it has passed, the attribute is left out, and so is one whose entity has nothing to select.
-/

namespace SchemaGen

/-- A selected attribute, with a selection of its own if it references an entity. -/
inductive Selection where
  | leaf (name : String)
  | branch (name : String) (parts : List Selection)
  deriving Repr

namespace Selection

mutual

/-- The lines of a selected attribute. -/
def lines (indent : Nat) : Selection → List String
  | .leaf name => [Text.spaces indent ++ name]
  | .branch name parts =>
    [Text.spaces indent ++ name ++ " \x7b"] ++ linesAll (indent + 2) parts ++
      [Text.spaces indent ++ "\x7d"]

/-- The lines of several selected attributes. -/
def linesAll (indent : Nat) : List Selection → List String
  | [] => []
  | part :: rest => lines indent part ++ linesAll indent rest

end

/-- The selection of an entity below a path of entities; a path is no longer than there are entities,
so that `depth` need not exceed their number. -/
def selectFrom (c : Catalog) : Nat → List String → Entity → List Selection
  | 0, _, _ => []
  | depth + 1, path, e =>
    e.attributes.filterMap fun a =>
      match a.shape.referenced?.bind c.entity? with
      | none => some (leaf a.name)
      | some target =>
        if (e.name :: path).contains target.name then none
        else
          let parts := selectFrom c depth (e.name :: path) target
          if parts.isEmpty then none else some (branch a.name parts)

/-- The selection of a whole entity. -/
def ofEntity (c : Catalog) (e : Entity) : List Selection := selectFrom c (c.entities.size + 1) [] e

/-- The selection of the entity of that name; nothing if there is none. -/
def ofName (c : Catalog) (name : String) : List Selection :=
  match c.entity? name with
  | some e => ofEntity c e
  | none => []

end Selection

end SchemaGen
