import SchemaGen.Emission.Declaration
import SchemaGen.Emission.Registry
import SchemaGen.Naming.Derived

/-!
# Fragments

A fragment is a reusable piece of emission: it yields the declarations of one entity for one target
and marks each in the registry first. A composite fragment renders its parts in order.

Emission keeps its marks when it fails, so `Emit` returns the registry beside the fault.
-/

namespace SchemaGen

/-- A step of emission: it may fail, and leaves a registry in either case. -/
abbrev Emit (α : Type) := Registry → Except RenderFault α × Registry

namespace Emit

/-- Yields a value without a mark. -/
def pure {α : Type} (a : α) : Emit α := fun r => (.ok a, r)

/-- Ends with a fault and keeps the marks. -/
def fail {α : Type} (f : RenderFault) : Emit α := fun r => (.error f, r)

/-- Goes on with the value of a step, if it has one. -/
def bind {α β : Type} (x : Emit α) (f : α → Emit β) : Emit β := fun r =>
  match x r with
  | (.ok a, r') => f a r'
  | (.error e, r') => (.error e, r')

instance : Monad Emit where
  pure := Emit.pure
  bind := Emit.bind

/-- A step that cannot fail. -/
def total {α : Type} (f : Registry → α × Registry) : Emit α := fun r => (.ok (f r).1, (f r).2)

/-- The value of a computation that needs no registry. -/
def ofExcept {α : Type} (x : Except RenderFault α) : Emit α := fun r => (x, r)

/-- Yields for each member of a list and puts the yields together. -/
def collect {α β : Type} (f : α → Emit (List β)) : List α → Emit (List β)
  | [] => Emit.pure []
  | a :: rest => do
    let ys ← f a
    let zs ← collect f rest
    return ys ++ zs

end Emit

/-- The fragments. -/
inductive Fragment where
  | entityModel | inputVariant | embeddedTypes | crudInputs | queryInputs | responseEnvelopes
  | operations | modelArtifact | apiSchemaEntity
  deriving DecidableEq, Repr

namespace Fragment

/-- Every fragment. -/
def all : List Fragment :=
  [.entityModel, .inputVariant, .embeddedTypes, .crudInputs, .queryInputs, .responseEnvelopes,
   .operations, .modelArtifact, .apiSchemaEntity]

/-- The fragment's name. -/
def name : Fragment → String
  | entityModel => "entity-model"
  | inputVariant => "input-variant"
  | embeddedTypes => "embedded-types"
  | crudInputs => "crud-inputs"
  | queryInputs => "query-inputs"
  | responseEnvelopes => "response-envelopes"
  | operations => "operations"
  | modelArtifact => "model-artifact"
  | apiSchemaEntity => "api-schema-entity"

/-- The fragment of that name. -/
def ofName? (name : String) : Option Fragment := all.find? fun f => f.name == name

/-- What the fragment is rendered from. -/
def parameters : Fragment → List String
  | entityModel => ["entity"]
  | inputVariant => ["entity"]
  | embeddedTypes => ["entity", "catalog"]
  | crudInputs => ["table"]
  | queryInputs => ["table"]
  | responseEnvelopes => ["table"]
  | operations => ["table"]
  | modelArtifact => ["entity"]
  | apiSchemaEntity => ["entity", "catalog"]

/-- The parts of a composite fragment; the others have none. -/
def dependencies : Fragment → List Fragment
  | modelArtifact => [entityModel, crudInputs, queryInputs, responseEnvelopes]
  | apiSchemaEntity =>
    [embeddedTypes, entityModel, inputVariant, crudInputs, queryInputs, responseEnvelopes, operations]
  | _ => []

end Fragment

namespace Emission

/-- A declaration if its name was free, and nothing otherwise. -/
def once (t : Target) (decl : TypeDecl) (r : Registry) : List Declaration × Registry :=
  ((if (r.markType t decl.name).1 then [.type decl] else []), (r.markType t decl.name).2)

/-- The entity's own type; its key attributes are required whatever the document says. -/
def entityDecl (e : Entity) : TypeDecl :=
  ⟨e.name, .object, e.description,
    e.attributes.map fun a => .ofAttribute a (a.required || e.primaryKey.contains a.name)⟩

/-- The input variant of an object type. -/
def inputDecl (o : ObjectType) : TypeDecl :=
  ⟨Naming.inputVariant o.name, .input, o.description,
    o.attributes.map fun a => .ofAttribute a a.required⟩

/-- Emits the entity's own type. -/
def entityModel (t : Target) (e : Entity) (r : Registry) : List Declaration × Registry :=
  once t (entityDecl e) r

/-- Emits the input variant of an object type; a table has none. -/
def inputVariant (t : Target) (e : Entity) (r : Registry) : List Declaration × Registry :=
  match e with
  | .table _ => ([], r)
  | .object o => once t (inputDecl o) r

/-- Emits for each member of a list in turn. -/
def each (f : Entity → Registry → List Declaration × Registry) :
    List Entity → Registry → List Declaration × Registry
  | [], r => ([], r)
  | e :: rest, r =>
    let (here, r₁) := f e r
    let (later, r₂) := each f rest r₁
    (here ++ later, r₂)

/-- Emits the object types that an entity embeds, and those that they embed, down to `depth` levels,
each with its input variant. A type that is marked already is not entered again, so that the walk
ends on any cycle of references. -/
def embedded (c : Catalog) (t : Target) : Nat → Entity → Registry → List Declaration × Registry
  | 0, _, r => ([], r)
  | depth + 1, e, r =>
    each (fun dep r =>
      if dep.isTable then ([], r)
      else match entityModel t dep r with
        | ([], r₁) => ([], r₁)
        | (own, r₁) =>
          let (inner, r₂) := embedded c t depth dep r₁
          let (input, r₃) := inputVariant t dep r₂
          (own ++ inner ++ input, r₃))
      (c.dependencies e) r

/-- How many object types of the catalog are not marked for the target. -/
def unmarked (c : Catalog) (t : Target) (r : Registry) : Nat :=
  (c.entityList.filter fun e => !e.isTable && !r.hasType t e.name).length

/-- Emits the object types that an entity embeds. Every level of the walk marks a type that was free,
so that one level more than there are free types is enough. -/
def embeddedTypes (c : Catalog) (t : Target) (e : Entity) (r : Registry) : List Declaration × Registry :=
  embedded c t (unmarked c t r + 1) e r

/-- The field of a key attribute. -/
def keyField (table : Table) (required : Bool) (name : String) : Except RenderFault Field :=
  match table.attribute? name with
  | some a => .ok (.ofAttribute a required)
  | none => .error (.undeclaredKey table.name name)

/-- The input that creates an item: every attribute, the keys required. -/
def createDecl (table : Table) : TypeDecl :=
  ⟨Naming.createInput table.name, .input, some s!"Input for creating a {table.name} item",
    table.attributes.map fun a => .ofAttribute a (a.required || table.primaryKey.contains a.name)⟩

/-- The input that updates an item: every attribute, only the keys required. -/
def updateDecl (table : Table) : TypeDecl :=
  ⟨Naming.updateInput table.name, .input, some s!"Input for updating a {table.name} item",
    table.attributes.map fun a => .ofAttribute a (table.primaryKey.contains a.name)⟩

/-- The input that deletes an item: the keys. -/
def deleteDecl (table : Table) : Except RenderFault TypeDecl := do
  let fields ← table.primaryKey.mapM (keyField table true)
  return ⟨Naming.deleteInput table.name, .input, some s!"Input for deleting a {table.name} item", fields⟩

/-- Emits a declaration that is worked out only if its name was free. -/
def onceOf (t : Target) (name : String) (decl : Except RenderFault TypeDecl) : Emit (List Declaration) :=
  fun r =>
    if (r.markType t name).1 then
      (decl.map fun d => [.type d], (r.markType t name).2)
    else (.ok [], (r.markType t name).2)

/-- Emits the inputs that create, update and delete an item. -/
def crudInputs (t : Target) (table : Table) : Emit (List Declaration) := do
  let create ← Emit.total (once t (createDecl table))
  let update ← Emit.total (once t (updateDecl table))
  let delete ← onceOf t (Naming.deleteInput table.name) (deleteDecl table)
  return create ++ update ++ delete

/-- The input of a query: what it requires, and what may narrow it. -/
def queryDecl (table : Table) (key : QueryKey) : Except RenderFault TypeDecl := do
  let required ← key.required.mapM (keyField table true)
  let optional ← key.optional.toList.mapM (keyField table false)
  let description := match key.index with
    | some index => s!"Query {table.name} through index {index}"
    | none => s!"Query {table.name} by primary key"
  return ⟨Naming.queryInput table.name key.required, .input, some description, required ++ optional⟩

/-- Whether `a` may stand before `b` in name order. -/
def nameLE (a b : String) : Bool := !decide (b < a)

/-- The query keys in the order of their input names; of one name the first declared stands first. -/
def sortedQueryKeys (table : Table) : List QueryKey :=
  table.queryKeys.mergeSort fun a b =>
    nameLE (Naming.queryInput table.name a.required) (Naming.queryInput table.name b.required)

/-- Emits the inputs of the table's queries. -/
def queryInputs (t : Target) (table : Table) : Emit (List Declaration) :=
  Emit.collect (fun key => onceOf t (Naming.queryInput table.name key.required) (queryDecl table key))
    (sortedQueryKeys table)

/-- An envelope: a status, a message and the data. -/
def envelope (name description : String) (data : Shape) : TypeDecl :=
  ⟨name, .object, some description,
    [⟨"statusCode", .integer, true, none⟩,
     ⟨"message", .shape (.scalar .string), false, none⟩,
     ⟨"data", .shape data, false, none⟩]⟩

/-- The envelope around a list of items. -/
def listEnvelope (table : Table) : TypeDecl :=
  envelope (Naming.listResponse table.name) s!"Result envelope carrying a list of {table.name} items"
    (.referenceArray table.name)

/-- The envelope around one item. -/
def itemEnvelope (table : Table) : TypeDecl :=
  envelope (Naming.response table.name) s!"Result envelope carrying one {table.name} item"
    (.reference table.name)

/-- Emits the table's envelopes. -/
def responseEnvelopes (t : Target) (table : Table) (r : Registry) : List Declaration × Registry :=
  let (list, r₁) := once t (listEnvelope table) r
  let (item, r₂) := once t (itemEnvelope table) r₁
  (list ++ item, r₂)

/-- The operation that does `verb` on an item. -/
def itemOperation (table : Table) (verb inputType : String) : Operation :=
  ⟨Naming.mutation verb table.name, .mutation, table.name, inputType, Naming.response table.name⟩

/-- The operation that answers a query. -/
def queryOperation (table : Table) (key : QueryKey) : Operation :=
  ⟨Naming.queryOperation table.name key.required, .query, table.name,
    Naming.queryInput table.name key.required, Naming.listResponse table.name⟩

/-- The operations that a table calls for, repeated names included. -/
def candidates (table : Table) : List Operation :=
  [itemOperation table "create" (Naming.createInput table.name),
   itemOperation table "update" (Naming.updateInput table.name),
   itemOperation table "delete" (Naming.deleteInput table.name)] ++
    table.queryKeys.map (queryOperation table)

/-- The operations that a table calls for, in name order. -/
def sortedCandidates (table : Table) : List Operation :=
  (candidates table).mergeSort fun a b => nameLE a.name b.name

/-- Keeps the operations whose names are free. -/
def freeOperations (t : Target) : List Operation → Registry → List Declaration × Registry
  | [], r => ([], r)
  | op :: rest, r =>
    let (free, r₁) := r.markOperation t op.name
    let (later, r₂) := freeOperations t rest r₁
    ((if free then .operation op :: later else later), r₂)

/-- Emits the table's operations in name order. -/
def operations (t : Target) (table : Table) (r : Registry) : List Declaration × Registry :=
  freeOperations t (sortedCandidates table) r

/-- Emits for a table; an object type yields nothing. -/
def forTable (e : Entity) (f : Table → Emit (List Declaration)) : Emit (List Declaration) :=
  match e with
  | .table table => f table
  | .object _ => Emit.pure []

/-- Emits a fragment that has no parts. -/
def single (c : Catalog) (t : Target) (e : Entity) : Fragment → Emit (List Declaration)
  | .entityModel => Emit.total (entityModel t e)
  | .inputVariant => Emit.total (inputVariant t e)
  | .embeddedTypes => Emit.total (embeddedTypes c t e)
  | .crudInputs => forTable e (crudInputs t)
  | .queryInputs => forTable e (queryInputs t)
  | .responseEnvelopes => forTable e fun table => Emit.total (responseEnvelopes t table)
  | .operations => forTable e fun table => Emit.total (operations t table)
  | .modelArtifact => Emit.pure []
  | .apiSchemaEntity => Emit.pure []

/-- Emits a fragment: its parts in order, then itself. -/
def render (c : Catalog) (t : Target) (e : Entity) (f : Fragment) : Emit (List Declaration) := do
  let parts ← Emit.collect (single c t e) f.dependencies
  let own ← single c t e f
  return parts ++ own

/-- Emits the fragment of that name. -/
def renderNamed (c : Catalog) (t : Target) (e : Entity) (name : String) : Emit (List Declaration) :=
  match Fragment.ofName? name with
  | some f => render c t e f
  | none => Emit.fail (.unknownFragment e.name name)

end Emission

end SchemaGen
