import SchemaGen.Document.Rules
import SchemaGen.Yaml.Reading

/-!
# Documents from their sources

A source is read as a draft, and the draft has to obey the rules of the loader. A blank source is an
empty draft.
-/

namespace SchemaGen

open Yaml

namespace Draft

/-- The version in a value: a text, or a number as it is printed. -/
def Version.ofValue : Value → Version
  | .atom (.text s) => .text s
  | .atom (.int i) => .number (toString i)
  | .atom (.float x) => .number (Decimal.scientific x)
  | _ => .other

/-- The record at a node, of which only the known names count. -/
def record (a : Anchors) (known : List String) (node : Node) : Reading (List (String × Node)) :=
  Reading.record a id known node

/-- A text that may be absent. -/
def text (a : Anchors) (fields : List (String × Node)) (name : String) : Reading (Option String) :=
  Reading.field a (Reading.text a) fields name

/-- A list of texts that may be absent. -/
def texts (a : Anchors) (fields : List (String × Node)) (name : String) :
    Reading (Option (List String)) :=
  Reading.field a (Reading.list a (Reading.text a)) fields name

/-- A truth value that is false where it is absent. -/
def flag (a : Anchors) (fields : List (String × Node)) (name : String) : Reading Bool :=
  match fields.lookup name with
  | some node => Reading.bool a node
  | none => return false

/-- Reads an attribute. -/
def Attribute.read (a : Anchors) (node : Node) : Reading Attribute := do
  let fields ← record a ["name", "type", "required", "description", "enumType", "enumValues"] node
  let name ← text a fields "name"
  let type ← text a fields "type"
  let required ← flag a fields "required"
  let description ← text a fields "description"
  let enumType ← text a fields "enumType"
  let enumValues ← texts a fields "enumValues"
  return ⟨name, type, required, description, enumType, enumValues⟩

/-- Reads an index. -/
def Index.read (a : Anchors) (node : Node) : Reading Index := do
  let fields ← record a
    ["name", "kind", "partition", "sort", "projectionType", "projectedAttributes"] node
  let name ← text a fields "name"
  let kind ← text a fields "kind"
  let partition ← text a fields "partition"
  let sort ← text a fields "sort"
  let projectionType ← text a fields "projectionType"
  let projectedAttributes ← texts a fields "projectedAttributes"
  return ⟨name, kind, partition, sort, projectionType, projectedAttributes⟩

/-- Reads the primary key. -/
def PrimaryKey.read (a : Anchors) (node : Node) : Reading PrimaryKey := do
  let fields ← record a ["partition", "sort"] node
  let partition ← text a fields "partition"
  let sort ← text a fields "sort"
  return ⟨partition, sort⟩

/-- The name of the list of indexes under each of its spellings. -/
def keysField (name : String) : String :=
  if name == "secondaryIndexes" || name == "secondary_indexes" then "secondary" else name

/-- Reads the keys of a table. -/
def Keys.read (a : Anchors) (node : Node) : Reading Keys := do
  let fields ← Reading.record a keysField ["primary", "secondary"] node
  let primary ← Reading.field a (PrimaryKey.read a) fields "primary"
  let secondary ← Reading.field a (Reading.list a (Index.read a)) fields "secondary"
  return ⟨primary, secondary⟩

/-- Reads the model block of a table. -/
def Model.read (a : Anchors) (node : Node) : Reading Model := do
  let fields ← record a ["keys", "attributes"] node
  let keys ← Reading.field a (Keys.read a) fields "keys"
  let attributes ← Reading.field a (Reading.list a (Attribute.read a)) fields "attributes"
  return ⟨keys, attributes⟩

/-- Reads a document. -/
def Document.read (a : Anchors) (node : Node) : Reading Document := do
  let fields ← record a ["name", "kind", "version", "description", "model", "attributes"] node
  let name ← text a fields "name"
  let kind ← text a fields "kind"
  let version ← Reading.field a (Value.read a (Value.depth - 1)) fields "version"
  let description ← text a fields "description"
  let model ← Reading.field a (Model.read a) fields "model"
  let attributes ← Reading.field a (Reading.list a (Attribute.read a)) fields "attributes"
  return ⟨name, kind, version.map Version.ofValue, description, model, attributes⟩

/-- The draft in a source. -/
def Document.ofSource? (source : String) : Option Document :=
  if Text.isBlankText source then some {}
  else do
    let tree ← Tree.read? source
    tree.run (Document.read tree.anchors)

/-- The names and values of an enum catalog's source; of a name that occurs twice the last one
counts. -/
def enumsOfSource? (source : String) : Option (NameMap (List String)) :=
  if Text.isBlankText source then some .empty
  else do
    let tree ← Tree.read? source
    let a := tree.anchors
    let entries ← tree.run fun root => do
      (← Reading.entries a root).mapM fun e => do
        return (e.1, ← Reading.list a (Reading.text a) e.2)
    return NameMap.ofList entries

end Draft

namespace SchemaDoc

/-- The document in a source that obeys every rule. -/
def parse (file : Path) (source : String) : Except SchemaFault SchemaDoc :=
  match Draft.Document.ofSource? source with
  | some draft => Rules.document file draft
  | none => .error ⟨file, "document", .unreadable⟩

end SchemaDoc

namespace EnumDoc

/-- The entries of an enum catalog's source, in name order. -/
def parseAll (file : Path) (source : String) : Except SchemaFault (List EnumDoc) :=
  match Draft.enumsOfSource? source with
  | some entries => Rules.enumCatalog file entries
  | none => .error ⟨file, "document", .unreadable⟩

end EnumDoc

end SchemaGen
