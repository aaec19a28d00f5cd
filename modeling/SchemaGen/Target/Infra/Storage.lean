import SchemaGen.Json
import SchemaGen.Model.Surface
import SchemaGen.Target.Options

/-!
# Storage description

One table of the key-value store for each table of the catalog, with its keys and indexes, and its
physical name as an output that other stacks import.
-/

namespace SchemaGen.Infra

open Json (text list object)

/-- The definition of a key attribute: its name and its type in the store. -/
def keyDefinition (t : Table) (name : String) : Except RenderFault Json :=
  match t.attribute? name with
  | some a =>
    .ok (object [("AttributeName", text name),
      ("AttributeType", text (Surface.storage.mapShape a.shape))])
  | none => .error (.undeclaredStorageKey t.name name)

/-- A key: the partition attribute and, if there is one, the sort attribute. -/
def keySchema (partition : String) (sort : Option String) : Json :=
  list (object [("AttributeName", text partition), ("KeyType", text "HASH")] ::
    sort.toList.map fun s => object [("AttributeName", text s), ("KeyType", text "RANGE")])

/-- What an index carries. -/
def projection : Projection → Json
  | .including attrs =>
    object [("ProjectionType", text "INCLUDE"), ("NonKeyAttributes", list (attrs.map text))]
  | p => object [("ProjectionType", text p.type)]

/-- An index. -/
def index (i : Index) : Json :=
  object [("IndexName", text i.name), ("KeySchema", keySchema i.partition i.sort),
    ("Projection", projection i.projection)]

/-- The indexes of a kind, under a name, if there are any. -/
def indexesOf (t : Table) (kind : IndexKind) (name : String) : List (String × Json) :=
  let chosen := t.indexes.filter fun i => i.kind == kind
  if chosen.isEmpty then [] else [(name, list (chosen.map index))]

/-- The resource of a table. -/
def tableResource (t : Table) : Except RenderFault Json := do
  let definitions ← t.keyAttributes.mapM (keyDefinition t)
  return object
    [("Type", text "AWS::DynamoDB::Table"),
     ("Properties", object <|
       [("TableName", text (Naming.toKebab t.name)),
        ("BillingMode", text "PAY_PER_REQUEST"),
        ("AttributeDefinitions", list definitions),
        ("KeySchema", keySchema t.partition t.sort)] ++
       indexesOf t .gsi "GlobalSecondaryIndexes" ++
       indexesOf t .lsi "LocalSecondaryIndexes" ++
       [("Tags", list [object [("Key", text "schema-version"), ("Value", text t.version)]])])]

/-- The output that shares a table's physical name. -/
def tableOutput (t : Table) : Json :=
  let id := Naming.tableLogicalId t.name
  object
    [("Description", text ("Physical name of the " ++ t.name ++ " table")),
     ("Value", object [("Ref", text id)]),
     ("Export", object [("Name", text (Naming.tableExport t.name))])]

/-- Resources and outputs, by their names. -/
structure Stack where
  resources : List (String × Json)
  outputs : List (String × Json)
  deriving Repr

/-- The stack without resources. -/
def Stack.empty : Stack := ⟨[], []⟩

/-- The stack with one more table, unless its name is taken. -/
def addTable (s : Stack) (t : Table) : Emit Stack := do
  let id := Naming.tableLogicalId t.name
  if ← Emit.mark .infra id then
    let resource ← Emit.ofExcept (tableResource t)
    return ⟨Members.insert id resource s.resources, Members.insert (id ++ "Name") (tableOutput t) s.outputs⟩
  else return s

/-- The stack with more tables. -/
def addTables : Stack → List Table → Emit Stack
  | s, [] => Emit.pure s
  | s, t :: rest => do addTables (← addTable s t) rest

/-- The storage description of a catalog. -/
def storage (c : Catalog) : Emit Json := do
  let stack ← addTables Stack.empty c.tables
  return object
    [("AWSTemplateFormatVersion", text "2010-09-09"),
     ("Description", text "Storage tables"),
     ("Resources", object stack.resources),
     ("Outputs", object stack.outputs)]

end SchemaGen.Infra
