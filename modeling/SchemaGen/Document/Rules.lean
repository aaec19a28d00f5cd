import SchemaGen.Document.Basic
import SchemaGen.Document.Draft
import SchemaGen.Model.Surface
import SchemaGen.NameMap
import SchemaGen.Violation

/-!
# The rules of the loader

A draft becomes a document when it obeys every rule. Rules are applied in the order of the document's
fields and the first one violated is reported, with the field it concerns.

Results:
1. `require_eq_ok_iff`: a required field passes exactly when it is there and not blank.
2. `keyAttribute_eq_ok_iff`: a key passes exactly when it names a declared attribute that can be a key.
-/

namespace SchemaGen

/-- Camel-case names: a lower-case letter, then letters and digits. -/
def isCamelName (cs : List Char) : Bool :=
  match cs with
  | [] => false
  | c :: rest => c.isLower && rest.all Char.isAlphanum

/-- Kebab-case names: runs of lower-case letters and digits joined by `-`, the first character a
letter. -/
def isKebabName (cs : List Char) : Bool :=
  cs.head?.any Char.isLower &&
    (Text.splitAt '-' cs).all fun run => !run.isEmpty && run.all fun c => c.isLower || c.isDigit

/-- Enum values: a letter or `_`, then letters, digits and `_`. -/
def isEnumValue (cs : List Char) : Bool :=
  match cs with
  | [] => false
  | c :: rest => (c.isAlpha || c == '_') && rest.all fun d => d.isAlphanum || d == '_'

namespace Rules

/-- The result of a rule. -/
abbrev Checked (α : Type) := Except SchemaFault α

/-- Reports a violation. -/
def refuse {α : Type} (file : Path) (field : String) (v : Violation) : Checked α :=
  .error ⟨file, field, v⟩

/-- Reports a violation unless a condition holds. -/
def ensure (ok : Bool) (file : Path) (field : String) (v : Violation) : Checked Unit :=
  if ok then .ok () else refuse file field v

/-- A field that must be there and not blank. -/
def require (file : Path) (field : String) (value : Option String) : Checked String :=
  match value with
  | some v => if Text.isBlankText v then refuse file field (.missing field) else .ok v
  | none => refuse file field (.missing field)

/-- A field that counts only if it is not blank. -/
def unlessBlank (value : Option String) : Option String := value.filter fun v => !Text.isBlankText v

/-- The file must be named for the entity. -/
def fileName (file : Path) (name : String) : Checked Unit :=
  ensure (file.stem == name) file "name" (.fileName file.fileName name (file.extension?.getD ""))

/-- A key must name a declared attribute whose shape can be a key. -/
def keyAttribute (file : Path) (field name : String) (attrs : List AttributeDoc) : Checked Unit :=
  match attrs.find? fun a => a.name == name with
  | none => refuse file field (.undeclaredKey name)
  | some a => ensure a.shape.keyType?.isSome file field (.keyType name a.shape.describe)

/-- Enum values must be identifiers, each once; `seen` holds those before. -/
def enumValuesFrom (file : Path) (field : String) (seen : List String) : List String → Checked Unit
  | [] => .ok ()
  | value :: rest => do
    ensure (isEnumValue value.toList) file field (.enumValue value)
    ensure (!seen.contains value) file field (.repeatedValue value)
    enumValuesFrom file field (value :: seen) rest

/-- A list of enum values must not be empty. -/
def enumValues (file : Path) (field : String) (values : List String) : Checked Unit := do
  ensure (!values.isEmpty) file field .noValues
  enumValuesFrom file field [] values

/-- The shape of an attribute, from its enum or its type expression. -/
def shape (file : Path) (field name : String) (a : Draft.Attribute) : Checked Shape :=
  match a.enumType with
  | some enum => do
    ensure (isTypeName enum.toList) file (field ++ ".enumType") (.enumName enum)
    match a.type with
    | some type => ensure (type == Scalar.string.name) file (field ++ ".type") (.enumType name type)
    | none => .ok ()
    return .enum enum []
  | none => do
    let type ← require file (field ++ ".type") a.type
    match Shape.parse? type with
    | some shape => return shape
    | none => refuse file (field ++ ".type") (.typeExpr type)

/-- The values declared for an attribute's enum on the spot. -/
def inlineValues (file : Path) (field : String) (shape : Shape) (values : Option (List String)) :
    Checked Unit :=
  match values with
  | none => .ok ()
  | some values => do
    ensure shape.enumName?.isSome file (field ++ ".enumValues") .valuesWithoutEnum
    enumValues file (field ++ ".enumValues") values

/-- One attribute; `seen` holds the names before it. -/
def attributeDoc (file : Path) (field : String) (seen : List String) (a : Draft.Attribute) :
    Checked AttributeDoc := do
  let name ← require file (field ++ ".name") a.name
  ensure (isCamelName name.toList) file (field ++ ".name") (.attributeName name)
  ensure (!seen.contains name) file (field ++ ".name") (.repeatedAttribute name)
  let shape ← shape file field name a
  inlineValues file field shape a.enumValues
  return ⟨name, shape, a.required, a.description, a.enumValues⟩

/-- A place in a list, as a field. -/
def element (field : String) (i : Nat) : String := field ++ "[" ++ toString i ++ "]"

/-- The attributes from the place `i` on; `seen` holds the names before it. -/
def attributesFrom (file : Path) (field : String) (i : Nat) (seen : List String) :
    List Draft.Attribute → Checked (List AttributeDoc)
  | [] => .ok []
  | a :: rest => do
    let doc ← attributeDoc file (element field i) seen a
    let docs ← attributesFrom file field (i + 1) (doc.name :: seen) rest
    return doc :: docs

/-- The list of attributes, which must be there. -/
def attributes (file : Path) (field : String) (drafts : Option (List Draft.Attribute)) :
    Checked (List AttributeDoc) :=
  match drafts with
  | none => refuse file field (.missing field)
  | some drafts => attributesFrom file field 0 [] drafts

/-- The kind of an index; an index is global unless it says otherwise. -/
def indexKind (file : Path) (field : String) (kind : Option String) : Checked IndexKind :=
  let kind := kind.getD "GSI"
  if kind == "GSI" || kind == "gsi" then .ok .gsi
  else if kind == "LSI" || kind == "lsi" then .ok .lsi
  else refuse file (field ++ ".kind") (.indexKind kind)

/-- The projection of an index; an index carries everything unless it says otherwise. -/
def projection (file : Path) (field name : String) (draft : Draft.Index) (attrs : List AttributeDoc) :
    Checked Projection :=
  let type := draft.projectionType.getD "ALL"
  if type == "ALL" then .ok .all
  else if type == "KEYS_ONLY" then .ok .keysOnly
  else if type == "INCLUDE" then do
    let projected := draft.projectedAttributes.getD []
    let field := field ++ ".projectedAttributes"
    ensure (!projected.isEmpty) file field (.emptyProjection name)
    projected.forM fun p =>
      ensure (attrs.any fun a => a.name == p) file field (.undeclaredProjection p)
    return .including projected
  else refuse file (field ++ ".projectionType") (.projectionType type)

/-- A local index lies in the table's partitions and has a sort attribute. -/
def localIndex (file : Path) (field name tablePartition : String) (kind : IndexKind)
    (partition : String) (sort : Option String) : Checked Unit :=
  match kind with
  | .gsi => .ok ()
  | .lsi => do
    ensure (partition == tablePartition) file (field ++ ".partition") (.localPartition name tablePartition)
    ensure sort.isSome file (field ++ ".sort") (.localSort name)

/-- A key attribute that need not be there. -/
def sortAttribute (file : Path) (field : String) (sort : Option String) (attrs : List AttributeDoc) :
    Checked Unit :=
  match sort with
  | some sort => keyAttribute file field sort attrs
  | none => .ok ()

/-- One index. -/
def index (file : Path) (field tablePartition : String) (attrs : List AttributeDoc)
    (draft : Draft.Index) : Checked Index := do
  let name ← require file (field ++ ".name") draft.name
  ensure (isKebabName name.toList) file (field ++ ".name") (.indexName name)
  let kind ← indexKind file field draft.kind
  let partition ← require file (field ++ ".partition") draft.partition
  keyAttribute file (field ++ ".partition") partition attrs
  let sort := unlessBlank draft.sort
  sortAttribute file (field ++ ".sort") sort attrs
  localIndex file field name tablePartition kind partition sort
  let projection ← projection file field name draft attrs
  return ⟨name, kind, partition, sort, projection⟩

/-- The indexes from the place `i` on; `seen` holds the names before it. -/
def indexesFrom (file : Path) (tablePartition : String) (attrs : List AttributeDoc) (i : Nat)
    (seen : List String) : List Draft.Index → Checked (List Index)
  | [] => .ok []
  | draft :: rest => do
    let field := element "model.keys.secondary" i
    let index ← index file field tablePartition attrs draft
    ensure (!seen.contains index.name) file (field ++ ".name") (.repeatedIndex index.name)
    let indexes ← indexesFrom file tablePartition attrs (i + 1) (index.name :: seen) rest
    return index :: indexes

/-- The version of a table: a text that is not blank, or a number. -/
def version (file : Path) (version : Option Draft.Version) : Checked String :=
  match version with
  | some (.text text) => if Text.isBlankText text then refuse file "version" .missingVersion else .ok text
  | some (.number text) => .ok text
  | _ => refuse file "version" .missingVersion

/-- A table document. -/
def table (file : Path) (draft : Draft.Document) : Checked TableDoc := do
  let version ← version file draft.version
  match draft.model with
  | none => refuse file "model" .missingModel
  | some model =>
    let keys := model.keys.getD {}
    let primary := keys.primary.getD {}
    let partition ← require file "model.keys.primary.partition" primary.partition
    let sort := unlessBlank primary.sort
    let attrs ← attributes file "model.attributes" model.attributes
    keyAttribute file "model.keys.primary.partition" partition attrs
    sortAttribute file "model.keys.primary.sort" sort attrs
    let indexes ← match keys.secondary with
      | none => pure none
      | some drafts => (indexesFrom file partition attrs 0 [] drafts).map some
    return ⟨version, partition, sort, indexes, attrs⟩

/-- What the document declares, by its kind. -/
def body (file : Path) (kind : String) (draft : Draft.Document) : Checked DocBody :=
  if kind == "table" then (table file draft).map .table
  else if kind == "graphql" then (attributes file "attributes" draft.attributes).map (.object .api)
  else if kind == "static" then (attributes file "attributes" draft.attributes).map (.object .static)
  else refuse file "kind" (.documentKind kind)

/-- The document that a draft becomes if it obeys every rule. -/
def document (file : Path) (draft : Draft.Document) : Checked SchemaDoc := do
  let name ← require file "name" draft.name
  let kind ← require file "kind" draft.kind
  fileName file name
  ensure (isTypeName name.toList) file "name" (.entityName name)
  let body ← body file kind draft
  return ⟨file, name, draft.description, body⟩

/-- The enums from a list of names and values. -/
def enumsFrom (file : Path) : List (String × List String) → Checked (List EnumDoc)
  | [] => .ok []
  | (name, values) :: rest => do
    ensure (isTypeName name.toList) file name (.enumName name)
    enumValues file name values
    let docs ← enumsFrom file rest
    return ⟨file, name, values⟩ :: docs

/-- The entries of the enum catalog, in name order. -/
def enumCatalog (file : Path) (entries : NameMap (List String)) : Checked (List EnumDoc) :=
  enumsFrom file entries.pairs

theorem require_eq_ok_iff (file : Path) (field v : String) (value : Option String) :
    require file field value = .ok v ↔ value = some v ∧ Text.isBlankText v = false := by
  cases value with
  | none => simp [require, refuse]
  | some w =>
    by_cases h : Text.isBlankText w = true
    · simp only [require, h, if_true, refuse]
      grind
    · simp only [require, h]
      grind

theorem ensure_eq_ok_iff (ok : Bool) (file : Path) (field : String) (v : Violation) :
    ensure ok file field v = .ok () ↔ ok = true := by
  cases ok <;> simp [ensure, refuse]

theorem keyAttribute_eq_ok_iff (file : Path) (field name : String) (attrs : List AttributeDoc) :
    keyAttribute file field name attrs = .ok () ↔
      ∃ a, (attrs.find? fun a => a.name == name) = some a ∧ a.shape.keyType?.isSome = true := by
  unfold keyAttribute
  cases h : attrs.find? fun a => a.name == name with
  | none => simp [refuse]
  | some a => simp [ensure_eq_ok_iff]

end Rules

end SchemaGen
