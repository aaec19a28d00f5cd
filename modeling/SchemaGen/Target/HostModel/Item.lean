import SchemaGen.Model.Surface
import SchemaGen.Naming.HostIdent
import SchemaGen.Target.Options
import SchemaGen.Text.Blank
import SchemaGen.Text.Lines

/-!
# Items of the host models

Structs and enums of Rust, before they are written down. A struct that would contain itself keeps
itself in a box; a field that may be absent is optional. Each field is read and written under the
attribute's name, which is given in full where the field's own name would not lead to it.

Results:
1. `wireName_field`: the name under which a field is read and written is the attribute's.
2. `docLines_startsWith`: every line of a description is a comment.
-/

namespace SchemaGen.HostModel

/-- The type of a field. -/
inductive HostType where
  | builtin (text : String)
  | named (name : String)
  | boxed (name : String)
  | list (element : HostType)
  | optional (inner : HostType)
  deriving DecidableEq, Repr

namespace HostType

/-- The type as it is written. -/
def text : HostType → String
  | builtin text => text
  | named name => name
  | boxed name => "Box<" ++ name ++ ">"
  | list element => "Vec<" ++ text element ++ ">"
  | optional inner => "Option<" ++ text inner ++ ">"

/-- The type of a field of the struct `owner`. -/
def ofShape (owner : String) : Shape → HostType
  | .scalar s => .builtin (Surface.host.scalar s)
  | .enum name _ => .named name
  | .scalarArray s => .list (.builtin (Surface.host.scalar s))
  | .referenceArray name => .list (.named name)
  | .reference name => if name = owner then .boxed name else .named name

end HostType

/-- The line of a description. -/
def docLine (indent line : String) : String :=
  if Text.isBlankText line then indent ++ "///" else indent ++ "/// " ++ Text.trimEnd line

/-- The lines of a description. -/
def docLines (indent text : String) : List String := (Text.lines text).map (docLine indent)

/-- A field of a struct. -/
structure HostField where
  /-- The lines that describe it. -/
  doc : List String
  name : String
  type : HostType
  /-- The name under which the field is read and written, if it is not the field's in camel case. -/
  rename : Option String
  deriving DecidableEq, Repr

/-- A struct. -/
structure Struct where
  doc : List String
  name : String
  fields : List HostField
  deriving DecidableEq, Repr

/-- An enum: its variants, each with the value under which it is read and written. -/
structure Enum where
  doc : List String
  name : String
  variants : List (String × String)
  deriving DecidableEq, Repr

/-- The name under which a field is read and written. -/
def HostField.wireName (f : HostField) : String := f.rename.getD (camelName f.name)

/-- The lines of a field's description, where descriptions are written. -/
def fieldDoc (docs : Bool) (f : Field) : List String :=
  match f.description with
  | some text => if docs then docLines "    " text else []
  | none => []

/-- The lines that describe a declared type: its description, or its name if it has none. -/
def typeDoc (docs : Bool) (name : String) (description : Option String) : List String :=
  if docs then
    match description with
    | some text => docLines "" text
    | none => ["/// " ++ name]
  else []

/-- The type of a field of the struct `owner`. -/
def fieldType (owner : String) (f : Field) : HostType :=
  let type := match f.type with
    | .integer => .builtin Surface.host.integer
    | .shape shape => HostType.ofShape owner shape
  if f.required then type else .optional type

/-- The field that a declaration calls for. -/
def field (docs : Bool) (owner : String) (f : Field) : HostField :=
  let name := Naming.hostField f.name
  ⟨fieldDoc docs f, name, fieldType owner f,
    if camelName name = f.name then none else some f.name⟩

/-- The struct of a declared type. -/
def struct (docs : Bool) (d : TypeDecl) : Struct :=
  ⟨typeDoc docs d.name d.description, d.name, d.fields.map (field docs d.name)⟩

/-- The variants of values in order, `seen` being those before. -/
def variantsFrom (enum : String) (seen : List String) : List String → Except RenderFault (List (String × String))
  | [] => .ok []
  | value :: rest =>
    if lacksVariant value then .error (.noVariant enum value)
    else if seen.contains (variantName value) then .error (.sharedVariant enum (variantName value) value)
    else (variantsFrom enum (variantName value :: seen) rest).map fun more =>
      (variantName value, value) :: more

/-- The enum of a catalog's enum. -/
def enum (docs : Bool) (e : EnumType) : Except RenderFault Enum :=
  (variantsFrom e.name [] e.values).map fun variants =>
    ⟨typeDoc docs e.name none, e.name, variants⟩

theorem docLines_startsWith (indent text : String) :
    ∀ line ∈ docLines indent text, ∃ rest, line = indent ++ "///" ++ rest := by
  intro line h
  simp only [docLines, List.mem_map] at h
  obtain ⟨l, _, rfl⟩ := h
  unfold docLine
  split
  · exact ⟨"", by simp⟩
  · have h : "/// " = "///" ++ " " := rfl
    exact ⟨" " ++ Text.trimEnd l, by rw [h]; simp only [String.append_assoc]⟩

theorem wireName_field (docs : Bool) (owner : String) (f : Field) :
    (field docs owner f).wireName = f.name := by
  unfold field HostField.wireName
  by_cases h : camelName (Naming.hostField f.name) = f.name <;> simp [h]

end SchemaGen.HostModel
