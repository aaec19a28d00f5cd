import SchemaGen.Emission.Fragment

/-!
# What all targets share

The options of a run, the line that marks a file as generated, and the imports of a file: names that a
declaration mentions and another file declares.

Results:
1. `Emit.mark_fst`: marking a name yields whether it was free.
-/

namespace SchemaGen

/-- The options of a run. -/
structure Options where
  /-- Whether descriptions are written. -/
  docs : Bool
  apiName : String
  /-- When the schema counts as generated, in seconds since 1970. -/
  generatedAt : Int
  /-- Where the API description finds the schema. -/
  schemaLocation : String
  deriving DecidableEq, Repr

/-- The line that marks a file as generated. -/
def banner : String := "Generated by tessera. Do not edit."

/-- The files of a target, by name. -/
abbrev Files := NameMap String

namespace Emit

/-- Marks a type and says whether it was free. -/
def mark (t : Target) (name : String) : Emit Bool := Emit.total (Registry.markType t name)

/-- Emits an entity's fragment. -/
def fragment (c : Catalog) (t : Target) (e : Entity) (f : Fragment) : Emit (List Declaration) :=
  Emission.render c t e f

theorem mark_fst (t : Target) (name : String) (r : Registry) :
    (Emit.mark t name r).1 = .ok (!r.hasType t name) := by
  simp [Emit.mark, Emit.total, Registry.fst_markType]

end Emit

/-- A type that a file uses and another one declares. -/
inductive Import where
  | enum (name : String)
  | model (name : String)
  deriving DecidableEq, Repr

/-- The import that a field calls for: its enum, or the entity that it references unless the file
declares that itself. -/
def Field.import? (c : Catalog) (declared : List String) (f : Field) : Option Import :=
  match f.type with
  | .integer => none
  | .shape shape =>
    match shape.enumName?, shape.referenced? with
    | some name, _ => some (.enum name)
    | none, some name =>
      if !declared.contains name && (c.entity? name).isSome then some (.model name) else none
    | none, none => none

/-- The imports that the fields of declared types call for. -/
def imports (c : Catalog) (decls : List TypeDecl) : List Import :=
  (decls.flatMap TypeDecl.fields).filterMap (Field.import? c (decls.map TypeDecl.name))

end SchemaGen
