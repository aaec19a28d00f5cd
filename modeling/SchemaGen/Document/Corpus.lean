import SchemaGen.Document.Rules
import SchemaGen.Model.Catalog
import SchemaGen.Naming.Derived

/-!
# From documents to a catalog

The documents of one run, taken together, make a catalog if no name is given twice: neither to two
documents, nor to a document and an enum, nor to a type that is generated for another entity. Enums
are put together from the enum catalog and from the values that attributes declare on the spot, which
must agree.

Results:
1. `resolve_reference`: a reference to an enum becomes an attribute of that enum.
2. `distinctNames_eq_ok_iff`: documents pass exactly when no two have one name.
-/

namespace SchemaGen

/-- The documents and enum entries of a run. -/
structure Corpus where
  documents : List SchemaDoc
  enums : List EnumDoc
  deriving DecidableEq, Repr

/-- An attribute that names an enum. -/
structure EnumUse where
  file : Path
  /-- The attribute's place in the document. -/
  field : String
  name : String
  values : Option (List String)
  deriving DecidableEq, Repr

/-- A reference that names no entity, and goes to the output as it stands. -/
structure DanglingReference where
  entity : String
  attr : String
  reference : String
  deriving DecidableEq, Repr

namespace Corpus

open Rules

/-- No name is given to two documents; `seen` holds the documents before. -/
def distinctNamesFrom (seen : List SchemaDoc) : List SchemaDoc → Checked Unit
  | [] => .ok ()
  | d :: rest =>
    match seen.find? fun e => e.name == d.name with
    | some first => refuse d.path "name" (.repeatedEntity d.name first.path)
    | none => distinctNamesFrom (d :: seen) rest

/-- The attributes of a document that name an enum. -/
def enumUses (d : SchemaDoc) : List EnumUse :=
  d.body.attributes.zipIdx.filterMap fun (a, i) =>
    a.shape.enumName?.map fun name => ⟨d.path, element d.body.attributesField i, name, a.enumValues⟩

/-- The enums with those that an attribute declares, which must agree with what is known. -/
def addUse (enums : NameMap (List String)) (u : EnumUse) : Checked (NameMap (List String)) :=
  match u.values with
  | none => .ok enums
  | some values =>
    match enums.get? u.name with
    | some known =>
      if known = values then .ok enums
      else refuse u.file (u.field ++ ".enumValues") (.enumConflict u.name values known)
    | none => .ok (enums.insert u.name values)

/-- Every enum that an attribute names has values. -/
def checkUse (enums : NameMap (List String)) (u : EnumUse) : Checked Unit :=
  ensure (enums.contains u.name) u.file (u.field ++ ".enumType") (.enumWithoutValues u.name)

/-- The values of all enums. -/
def enumValues (c : Corpus) : Checked (NameMap (List String)) := do
  let listed := NameMap.ofList (c.enums.map fun e => (e.name, e.values))
  let uses := c.documents.flatMap enumUses
  let enums ← uses.foldlM addUse listed
  uses.forM (checkUse enums)
  return enums

/-- A document's name is no enum's. -/
def notEnum (enums : NameMap (List String)) (d : SchemaDoc) : Checked Unit :=
  ensure (!enums.contains d.name) d.path "name" (.entityIsEnum d.name)

/-- The shape with the values of its enum, where it names one; a reference to an enum becomes one. -/
def resolve (enums : NameMap (List String)) (shape : Shape) : Shape :=
  match shape with
  | .enum name values => .enum name ((enums.get? name).getD values)
  | .reference name =>
    match enums.get? name with
    | some values => .enum name values
    | none => .reference name
  | shape => shape

/-- The attribute that a document declares. -/
def toAttribute (enums : NameMap (List String)) (a : AttributeDoc) : Attribute :=
  ⟨a.name, resolve enums a.shape, a.required, a.description⟩

/-- The entity that a document describes. -/
def toEntity (enums : NameMap (List String)) (d : SchemaDoc) : Entity :=
  match d.body with
  | .table t =>
    .table ⟨d.name, t.version, d.description, t.attributes.map (toAttribute enums), t.partition, t.sort,
      t.indexes.getD []⟩
  | .object origin attrs => .object ⟨d.name, d.description, attrs.map (toAttribute enums), origin⟩

/-- The names that are generated for an entity. -/
def generatedNames : Entity → List String
  | .table t =>
    [Naming.createInput t.name, Naming.updateInput t.name, Naming.deleteInput t.name,
     Naming.response t.name, Naming.listResponse t.name] ++
      t.queryKeys.map fun key => Naming.queryInput t.name key.required
  | .object o => [Naming.inputVariant o.name]

/-- The path of the document with that name. -/
def pathOf (documents : List SchemaDoc) (name : String) : Path :=
  ((documents.find? fun d => d.name == name).map SchemaDoc.path).getD ⟨""⟩

/-- The owners of generated names, with those of one more entity. -/
def addOwner (documents : List SchemaDoc) (entity : String) (owners : NameMap String) (name : String) :
    Checked (NameMap String) :=
  match owners.get? name with
  | some owner =>
    if owner = entity then .ok owners
    else refuse (pathOf documents entity) "name" (.sharedName name owner entity)
  | none => .ok (owners.insert name entity)

/-- The one owner of each generated name. -/
def owners (documents : List SchemaDoc) (catalog : Catalog) : Checked (NameMap String) :=
  catalog.entityList.foldlM
    (fun owners e => (generatedNames e).foldlM (addOwner documents e.name) owners) .empty

/-- The root types of the API schema. -/
def reservedNames : List String := ["Query", "Mutation"]

/-- A document's name is neither a root type's nor generated for an entity. -/
def notGenerated (owners : NameMap String) (d : SchemaDoc) : Checked Unit :=
  if reservedNames.contains d.name then refuse d.path "name" (.reservedName d.name)
  else match owners.get? d.name with
    | some owner => refuse d.path "name" (.entityCollision d.name owner)
    | none => .ok ()

/-- An enum's name is not generated for an entity. -/
def enumNotGenerated (documents : List SchemaDoc) (owners : NameMap String) (e : EnumType) : Checked Unit :=
  match owners.get? e.name with
  | some owner => refuse (pathOf documents owner) "name" (.enumCollision e.name owner)
  | none => .ok ()

/-- Every type name has one owner. -/
def checkGeneratedNames (documents : List SchemaDoc) (catalog : Catalog) : Checked Unit := do
  let owners ← owners documents catalog
  documents.forM (notGenerated owners)
  catalog.enumList.forM (enumNotGenerated documents owners)

/-- The enums and entities, before their names are compared. -/
def assemble (enums : NameMap (List String)) (documents : List SchemaDoc) : Catalog :=
  let withEnums := enums.pairs.foldl (fun (c : Catalog) p => c.addEnum ⟨p.1, p.2⟩) Catalog.empty
  documents.foldl (fun c d => c.addEntity (toEntity enums d)) withEnums

/-- The catalog of a corpus. -/
def catalog (c : Corpus) : Checked Catalog := do
  distinctNamesFrom [] c.documents
  let enums ← c.enumValues
  c.documents.forM (notEnum enums)
  let catalog := assemble enums c.documents
  checkGeneratedNames c.documents catalog
  return catalog

end Corpus

/-- The references of a catalog that name no entity of it, by entity in name order. -/
def Catalog.dangling (c : Catalog) : List DanglingReference :=
  c.entityList.flatMap fun e =>
    e.attributes.filterMap fun a =>
      (a.shape.referenced?.filter fun name => !c.entities.contains name).map fun name =>
        ⟨e.name, a.name, name⟩

namespace Corpus

theorem resolve_reference (enums : NameMap (List String)) (name : String) (values : List String)
    (h : enums.get? name = some values) : resolve enums (.reference name) = .enum name values := by
  simp [resolve, h]

theorem distinctNamesFrom_eq_ok_iff (seen documents : List SchemaDoc) :
    distinctNamesFrom seen documents = .ok () ↔
      (documents.map SchemaDoc.name).Nodup ∧ ∀ d ∈ documents, ∀ e ∈ seen, e.name ≠ d.name := by
  induction documents generalizing seen with
  | nil => simp [distinctNamesFrom]
  | cons d rest ih =>
    unfold distinctNamesFrom
    cases h : seen.find? fun e => e.name == d.name with
    | some first =>
      have hm := List.mem_of_find?_eq_some h
      have hn := List.find?_some h
      simp only [beq_iff_eq] at hn
      simp only [Rules.refuse, reduceCtorEq, false_iff, not_and]
      exact fun _ hd => hd d (by simp) first hm hn
    | none =>
      simp only [List.find?_eq_none, beq_iff_eq] at h
      simp only [ih, List.map_cons, List.nodup_cons, List.mem_map, List.mem_cons, not_exists, not_and]
      grind

theorem distinctNames_eq_ok_iff (documents : List SchemaDoc) :
    distinctNamesFrom [] documents = .ok () ↔ (documents.map SchemaDoc.name).Nodup := by
  simp [distinctNamesFrom_eq_ok_iff]

end Corpus

end SchemaGen
