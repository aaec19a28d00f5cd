import SchemaGen.Calendar
import SchemaGen.Model.Surface
import SchemaGen.Target.Options

/-!
# Definitions of the API schema

The schema is a list of definitions: enums, object and input types, the root types with their
operations, and the schema block that names the root types. An input may hold inputs only: a
reference to an object type becomes one to its input variant, and one to a table an opaque value.

Results:
1. `root_mem_roots_iff`: a root type is defined exactly when it has operations.
-/

namespace SchemaGen.ApiSchema

/-- A field of a type. -/
structure SdlField where
  description : Option String
  name : String
  type : String
  deriving DecidableEq, Repr

/-- A definition. -/
inductive Definition where
  | enum (name : String) (values : List String)
  | composite (role : TypeRole) (name : String) (description : Option String) (fields : List SdlField)
  | root (kind : OperationKind) (operations : List Operation)
  | schema (kinds : List OperationKind)
  deriving DecidableEq, Repr

/-- The name that a definition gives to a type. -/
def Definition.name? : Definition → Option String
  | enum name _ => some name
  | composite _ name _ _ => some name
  | root kind _ => some kind.root
  | schema _ => none

/-- A reference inside an input. -/
def inputReference (c : Catalog) (name : String) : String :=
  match c.entity? name with
  | some (.object _) => Naming.inputVariant name
  | some (.table _) => Surface.api.scalar .object
  | none => name

/-- The type of a shape inside an input. -/
def inputType (c : Catalog) : Shape → String
  | .reference name => inputReference c name
  | .referenceArray name => "[" ++ inputReference c name ++ "]"
  | shape => Surface.api.mapShape shape

/-- The type of a field before it is required. -/
def baseType (c : Catalog) (role : TypeRole) : FieldType → String
  | .integer => Surface.api.integer
  | .shape shape =>
    match role with
    | .input => inputType c shape
    | .object => Surface.api.mapShape shape

/-- The type of a field; a `!` marks a required one. -/
def fieldType (c : Catalog) (role : TypeRole) (f : Field) : String :=
  if f.required then baseType c role f.type ++ "!" else baseType c role f.type

/-- A description, where descriptions are written. -/
def describeIf (docs : Bool) (text : Option String) : Option String := if docs then text else none

/-- The field that a declaration calls for. -/
def field (o : Options) (c : Catalog) (role : TypeRole) (f : Field) : SdlField :=
  ⟨describeIf o.docs f.description, f.name, fieldType c role f⟩

/-- The definition of a declared type. -/
def composite (o : Options) (c : Catalog) (d : TypeDecl) : Definition :=
  .composite d.role d.name (describeIf o.docs d.description) (d.fields.map (field o c d.role))

/-- The values that no enum may have. -/
def reservedValues : List String := ["true", "false", "null"]

/-- The definition of an enum. -/
def enum (e : EnumType) : Except RenderFault Definition :=
  match e.values.find? reservedValues.contains with
  | some value => .error (.reservedValue e.name value)
  | none => .ok (.enum e.name e.values)

/-- The operations of a kind. -/
def ofKind (kind : OperationKind) (ops : List Operation) : List Operation :=
  ops.filter fun op => op.kind == kind

/-- The kinds of which there are operations, queries first. -/
def kinds (ops : List Operation) : List OperationKind :=
  [.query, .mutation].filter fun kind => !(ofKind kind ops).isEmpty

/-- The root types that operations call for, and the block that names them. -/
def roots (ops : List Operation) : List Definition :=
  (kinds ops).map (fun kind => .root kind (ofKind kind ops)) ++
    (if (kinds ops).isEmpty then [] else [.schema (kinds ops)])

theorem root_mem_roots_iff (ops all : List Operation) (kind : OperationKind) :
    Definition.root kind all ∈ roots ops ↔ all = ofKind kind ops ∧ all ≠ [] := by
  by_cases h : (kinds ops).isEmpty <;> cases kind <;> simp_all [roots, kinds] <;> grind

end SchemaGen.ApiSchema
