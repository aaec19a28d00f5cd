import SchemaGen.Model.Shape

/-!
# Entities

An entity is a table with its keys and indexes, or an object type without keys. A table is read by
query keys: its primary key, its sort key alone, both together, and each index by its partition.

Results:
1. `Table.mem_keyAttributes`: the key attributes are those of the primary key and of the indexes.
-/

namespace SchemaGen

/-- A field of an entity. -/
structure Attribute where
  name : String
  shape : Shape
  required : Bool
  description : Option String
  deriving DecidableEq, Repr

/-- Whether an index spans the table or one partition of it. -/
inductive IndexKind where
  | gsi | lsi
  deriving DecidableEq, Repr

/-- The kind as documents write it. -/
def IndexKind.name : IndexKind → String
  | .gsi => "GSI"
  | .lsi => "LSI"

/-- How much of an item an index carries. -/
inductive Projection where
  | all
  | keysOnly
  | including (attrs : List String)
  deriving DecidableEq, Repr

/-- The projection's type as documents write it. -/
def Projection.type : Projection → String
  | .all => "ALL"
  | .keysOnly => "KEYS_ONLY"
  | .including _ => "INCLUDE"

/-- The attributes that the index carries besides the keys. -/
def Projection.attributes : Projection → List String
  | .including attrs => attrs
  | _ => []

/-- A secondary index of a table. -/
structure Index where
  name : String
  kind : IndexKind
  partition : String
  sort : Option String
  projection : Projection
  deriving DecidableEq, Repr

/-- The attributes of an index's key, partition first. -/
def Index.key (index : Index) : List String := index.partition :: index.sort.toList

/-- One way of reading a table. -/
structure QueryKey where
  /-- The attributes that a query has to give. -/
  required : List String
  /-- The sort attribute of the index, which may narrow the query. -/
  optional : Option String
  /-- The index that answers, or none for the primary key. -/
  index : Option String
  deriving DecidableEq, Repr

/-- An entity kept in a table of the key-value store. -/
structure Table where
  name : String
  version : String
  description : Option String
  attributes : List Attribute
  partition : String
  sort : Option String
  indexes : List Index
  deriving DecidableEq, Repr

/-- The members of a list, each where it stands first. -/
def firstSeen : List String → List String → List String
  | _, [] => []
  | seen, x :: rest => if x ∈ seen then firstSeen seen rest else x :: firstSeen (x :: seen) rest

namespace Table

/-- The attribute of that name. -/
def attribute? (t : Table) (name : String) : Option Attribute :=
  t.attributes.find? fun a => a.name == name

/-- The attributes of the primary key, partition first. -/
def primaryKey (t : Table) : List String := t.partition :: t.sort.toList

/-- The attributes named by the primary key or an index, each where it is named first. -/
def keyAttributes (t : Table) : List String :=
  firstSeen [] (t.primaryKey ++ t.indexes.flatMap Index.key)

/-- The query keys: by partition, by sort attribute, by both, then by each index. -/
def queryKeys (t : Table) : List QueryKey :=
  ⟨[t.partition], none, none⟩ ::
    ((match t.sort with
      | some sort => [⟨[sort], none, none⟩, ⟨[t.partition, sort], none, none⟩]
      | none => []) ++
    t.indexes.map fun index => ⟨[index.partition], index.sort, some index.name⟩)

end Table

/-- Whether an object type is part of the API schema by itself, or only where it is referenced. -/
inductive Origin where
  | api | static
  deriving DecidableEq, Repr

/-- An entity without keys. -/
structure ObjectType where
  name : String
  description : Option String
  attributes : List Attribute
  origin : Origin
  deriving DecidableEq, Repr

/-- What a schema document describes. -/
inductive Entity where
  | table (table : Table)
  | object (type : ObjectType)
  deriving DecidableEq, Repr

namespace Entity

/-- The entity's name. -/
def name : Entity → String
  | table t => t.name
  | object o => o.name

/-- The entity's description. -/
def description : Entity → Option String
  | table t => t.description
  | object o => o.description

/-- The entity's attributes in declared order. -/
def attributes : Entity → List Attribute
  | table t => t.attributes
  | object o => o.attributes

/-- The table, if the entity is one. -/
def table? : Entity → Option Table
  | table t => some t
  | object _ => none

/-- Whether the entity is kept in a table. -/
def isTable (e : Entity) : Bool := e.table?.isSome

/-- The attributes of the primary key; an object type has none. -/
def primaryKey : Entity → List String
  | table t => t.primaryKey
  | object _ => []

/-- Whether the entity is part of the API schema by itself. -/
def isApiVisible : Entity → Bool
  | table _ => true
  | object o => o.origin == .api

end Entity

/-- An enum and its values in declared order. -/
structure EnumType where
  name : String
  values : List String
  deriving DecidableEq, Repr

theorem mem_firstSeen (seen xs : List String) (x : String) :
    x ∈ firstSeen seen xs ↔ x ∈ xs ∧ x ∉ seen := by
  induction xs generalizing seen with
  | nil => simp [firstSeen]
  | cons y rest ih =>
    by_cases h : y ∈ seen
    · simp only [firstSeen, h, if_true, ih, List.mem_cons]
      grind
    · simp only [firstSeen, h, if_false, List.mem_cons, ih]
      grind

theorem Table.mem_keyAttributes (t : Table) (x : String) :
    x ∈ t.keyAttributes ↔ x ∈ t.primaryKey ∨ ∃ index ∈ t.indexes, x ∈ index.key := by
  simp [Table.keyAttributes, mem_firstSeen]

end SchemaGen
