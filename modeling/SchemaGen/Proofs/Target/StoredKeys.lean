import SchemaGen.Proofs.Target.ApiResources
import SchemaGen.Proofs.Target.Separation

/-!
# Keys in the storage description

The storage description holds a resource for each table, with the key of the table and of each of its
indexes: under `HASH` the attribute that tells the partition, and under `RANGE` the one that sorts it.

Results:
1. `storedKey?_keySchema`: what a key schema says.
2. `storesKeys_of_resource`: the keys that the resource of a table holds.
3. `storage_ends`: the description holds the keys of every table.
-/

namespace SchemaGen

open Emission Registry

namespace Infra

/-! ## Reading a description -/

/-- The attributes of a key: the one that tells the partition, and the one that sorts it. -/
structure StoredKey where
  hash : String
  range : Option String
  deriving DecidableEq, Repr

/-- The attribute that has a role in a key schema. -/
def keyAttribute? (role : String) (schema : Json) : Option String :=
  let item? := schema.items.find? fun item => (item.member? "KeyType").bind Json.text? == some role
  item?.bind fun item => (item.member? "AttributeName").bind Json.text?

/-- The key that a key schema says. -/
def storedKey? (schema : Json) : Option StoredKey :=
  (keyAttribute? "HASH" schema).map fun hash => ⟨hash, keyAttribute? "RANGE" schema⟩

/-- The properties of a table's resource. -/
def tableProperties? (storage : Json) (table : String) : Option Json :=
  (storage.member? "Resources").bind fun resources =>
    (resources.member? (Naming.tableLogicalId table)).bind fun resource => resource.member? "Properties"

/-- The key of a table. -/
def storedPrimary? (storage : Json) (table : String) : Option StoredKey :=
  (tableProperties? storage table).bind fun properties =>
    (properties.member? "KeySchema").bind storedKey?

/-- The name and the key of an index. -/
def storedIndex? (entry : Json) : Option (String × StoredKey) :=
  ((entry.member? "IndexName").bind Json.text?).bind fun name =>
    ((entry.member? "KeySchema").bind storedKey?).map fun key => (name, key)

/-- The indexes of a table, each with its key. -/
def storedIndexes (storage : Json) (table : String) : List (String × StoredKey) :=
  let entries (part : String) : List Json :=
    (((tableProperties? storage table).bind fun properties => properties.member? part).map
      Json.items).getD []
  (entries "GlobalSecondaryIndexes" ++ entries "LocalSecondaryIndexes").filterMap storedIndex?

/-! ## What is stored -/

variable {c : Catalog} {o : Options} {table : Table} {tables : List Table} {r r' : Registry}
  {storage : Json} {files : Files}

theorem storedKey?_keySchema (hash : String) (range : Option String) :
    storedKey? (keySchema hash range) = some ⟨hash, range⟩ := by
  cases range <;> rfl

theorem storedIndex?_index (i : Index) :
    storedIndex? (index i) = some (i.name, ⟨i.partition, i.sort⟩) := by
  show (some i.name).bind (fun name => (storedKey? (keySchema i.partition i.sort)).map fun key =>
    (name, key)) = _
  rw [storedKey?_keySchema]
  rfl

/-- The keys that a description holds for a table: its own, and those of its indexes and no others. -/
structure StoresKeys (storage : Json) (table : Table) : Prop where
  primary : storedPrimary? storage table.name = some ⟨table.partition, table.sort⟩
  indexes : ∀ name key, (name, key) ∈ storedIndexes storage table.name ↔
    ∃ i ∈ table.indexes, i.name = name ∧ key = ⟨i.partition, i.sort⟩

/-- The indexes of a kind are listed where the properties have a list of them. -/
theorem entries_indexesOf {members : List (String × Json)} {kind : IndexKind} {name : String}
    (h : members.lookup name = (indexesOf table kind name).lookup name) :
    (((Json.object members).member? name).map Json.items).getD [] =
      (table.indexes.filter fun i => i.kind == kind).map index := by
  show ((members.lookup name).map Json.items).getD [] = _
  rw [h]
  unfold indexesOf
  cases hchosen : table.indexes.filter fun i => i.kind == kind with
  | nil => rfl
  | cons i rest => simp [Json.items]

theorem lookup_indexesOf_of_ne (table : Table) (kind : IndexKind) {name other : String} (h : other ≠ name) :
    (indexesOf table kind name).lookup other = none := by
  unfold indexesOf
  dsimp only
  split
  · rfl
  · rw [List.lookup_cons, beq_eq_false_iff_ne.mpr h]
    rfl

/-- The properties of a table's resource: its key, a list for each kind of index that it has, and the
definitions of the key attributes. -/
theorem exists_properties {resource : Json} (h : tableResource table = .ok resource) :
    ∃ members : List (String × Json), resource.member? "Properties" = some (.object members) ∧
      members.lookup "KeySchema" = some (keySchema table.partition table.sort) ∧
      members.lookup "GlobalSecondaryIndexes" =
        (indexesOf table .gsi "GlobalSecondaryIndexes").lookup "GlobalSecondaryIndexes" ∧
      members.lookup "LocalSecondaryIndexes" =
        (indexesOf table .lsi "LocalSecondaryIndexes").lookup "LocalSecondaryIndexes" ∧
      ∃ definitions, table.keyAttributes.mapM (keyDefinition table) = .ok definitions ∧
        members.lookup "AttributeDefinitions" = some (.list definitions) := by
  obtain ⟨definitions, hdefinitions, hmade⟩ := bind_eq_ok.mp h
  cases hmade
  refine ⟨_, rfl, rfl, ?_, ?_, definitions, hdefinitions, rfl⟩
  · have hother := lookup_indexesOf_of_ne table .lsi
      (show "GlobalSecondaryIndexes" ≠ "LocalSecondaryIndexes" by decide)
    simp [List.lookup_append, List.lookup_cons, hother]
  · have hother := lookup_indexesOf_of_ne table .gsi
      (show "LocalSecondaryIndexes" ≠ "GlobalSecondaryIndexes" by decide)
    simp [List.lookup_append, List.lookup_cons, hother]

/-- Every index is of one of the two kinds. -/
theorem mem_filter_kinds_iff {i : Index} : i ∈ table.indexes.filter (fun i => i.kind == .gsi) ++
    table.indexes.filter (fun i => i.kind == .lsi) ↔ i ∈ table.indexes := by
  rw [List.mem_append, List.mem_filter, List.mem_filter]
  cases hkind : i.kind <;> simp

theorem storesKeys_of_resource {resource : Json} (h : tableResource table = .ok resource)
    (hr : (storage.member? "Resources").bind (fun resources =>
      resources.member? (Naming.tableLogicalId table.name)) = some resource) :
    StoresKeys storage table := by
  obtain ⟨members, hmembers, hkey, hgsi, hlsi, -⟩ := exists_properties h
  have hproperties : tableProperties? storage table.name = some (.object members) := by
    unfold tableProperties?
    rw [← Option.bind_assoc, hr, Option.bind_some, hmembers]
  constructor
  · unfold storedPrimary?
    rw [hproperties]
    show (members.lookup "KeySchema").bind storedKey? = _
    rw [hkey, Option.bind_some, storedKey?_keySchema]
  · intro name key
    have hentry : storedIndex? ∘ index = some ∘ fun i => (i.name, ⟨i.partition, i.sort⟩) :=
      funext storedIndex?_index
    unfold storedIndexes
    rw [hproperties]
    dsimp only [Option.bind_some]
    rw [entries_indexesOf hgsi, entries_indexesOf hlsi, ← List.map_append, List.filterMap_map, hentry,
      List.filterMap_eq_map, List.mem_map]
    simp only [mem_filter_kinds_iff, Prod.mk.injEq, eq_comm (a := key)]

/-! ## Every table is stored -/

theorem exists_tableResource (hc : c.IsSound) {table : Table} (ht : table ∈ c.tables) :
    ∃ resource, tableResource table = .ok resource := by
  obtain ⟨definitions, hdefinitions⟩ := exists_mapM_eq_ok (f := keyDefinition table) fun k hk => by
    obtain ⟨a, ha⟩ := hc.attribute?_of_key (hc.entity?_of_mem_tables ht) hk
    unfold keyDefinition
    rw [ha]
    exact ⟨_, rfl⟩
  unfold tableResource
  rw [hdefinitions]
  exact ⟨_, rfl⟩

theorem addTable_of_free {resource : Json} (h : tableResource table = .ok resource) (stack : Stack)
    (hfree : r.hasType .infra (Naming.tableLogicalId table.name) = false) :
    addTable stack table r =
      (.ok ⟨Members.insert (Naming.tableLogicalId table.name) resource stack.resources,
          Members.insert (Naming.tableLogicalId table.name ++ "Name") (tableOutput table) stack.outputs⟩,
        (r.markType .infra (Naming.tableLogicalId table.name)).2) := by
  unfold addTable
  rw [Emit.bind_of_eq_ok (Emit.mark_of_free hfree), if_pos rfl, h]
  rfl

/-- A table that was put in under a free id brought the resource that is made for it. -/
theorem addTable_eq_ok {stack stack' : Stack} (h : addTable stack table r = (.ok stack', r'))
    (hfree : r.hasType .infra (Naming.tableLogicalId table.name) = false) :
    ∃ resource, tableResource table = .ok resource ∧
      stack' = ⟨Members.insert (Naming.tableLogicalId table.name) resource stack.resources,
        Members.insert (Naming.tableLogicalId table.name ++ "Name") (tableOutput table) stack.outputs⟩ ∧
      r' = (r.markType .infra (Naming.tableLogicalId table.name)).2 := by
  cases hmade : tableResource table with
  | error fault =>
    unfold addTable at h
    rw [Emit.bind_of_eq_ok (Emit.mark_of_free hfree), if_pos rfl, hmade] at h
    cases h
  | ok resource =>
    rw [addTable_of_free hmade stack hfree] at h
    cases h
    exact ⟨resource, rfl, rfl, rfl⟩

/-- Tables of other names have other ids. -/
theorem logicalId_not_mem (h : table.name ∉ tables.map fun table => table.name) :
    Naming.tableLogicalId table.name ∉ tables.map fun table => Naming.tableLogicalId table.name := by
  intro hm
  obtain ⟨other, ho, he⟩ := List.mem_map.mp hm
  exact h (List.mem_map.mpr ⟨other, ho, (String.append_left_inj _).mp he⟩)

/-- Tables of different names are put in one after the other, each under an id of its own. -/
theorem addTables_ends (hn : (tables.map fun table => table.name).Nodup)
    (h : ∀ table ∈ tables, ∃ resource, tableResource table = .ok resource)
    (hfree : ∀ table ∈ tables, r.hasType .infra (Naming.tableLogicalId table.name) = false)
    (stack : Stack) : (addTables stack tables).Ends r fun stack' _ =>
      (∀ table ∈ tables, ∃ resource, tableResource table = .ok resource ∧
        stack'.resources.lookup (Naming.tableLogicalId table.name) = some resource) ∧
      ∀ id, (∀ table ∈ tables, id ≠ Naming.tableLogicalId table.name) →
        stack'.resources.lookup id = stack.resources.lookup id := by
  induction tables generalizing stack r with
  | nil => exact ⟨stack, r, rfl, by simp, fun _ _ => rfl⟩
  | cons table rest ih =>
    rw [List.map_cons, List.nodup_cons] at hn
    have hid := logicalId_not_mem hn.1
    obtain ⟨⟨resource, hresource⟩, hothers⟩ := List.forall_mem_cons.mp h
    obtain ⟨htable, hrest⟩ := List.forall_mem_cons.mp hfree
    have hfirst := addTable_of_free hresource stack htable
    obtain ⟨stack', r', hrun, hstored, hkept⟩ := ih hn.2 hothers (Emit.free_of_markType hid hrest) _
    refine ⟨stack', r', (Emit.bind_of_eq_ok hfirst).trans hrun, ?_, fun id hid => ?_⟩
    · refine List.forall_mem_cons.mpr ⟨⟨resource, hresource, ?_⟩, hstored⟩
      rw [hkept _ fun other ho he => hid (List.mem_map.mpr ⟨other, ho, he.symm⟩), Members.lookup_insert,
        if_pos rfl]
    · rw [hkept id fun other ho => hid other (List.mem_cons_of_mem _ ho), Members.lookup_insert,
        if_neg (hid table List.mem_cons_self)]

/-- The description holds the keys of every table of the catalog. -/
theorem storage_ends (hc : c.IsSound) (hr : r.IsFresh .infra) :
    (Infra.storage c).Ends r fun storage _ => ∀ table ∈ c.tables, StoresKeys storage table := by
  have htables := addTables_ends (nodup_names_tables hc) (fun table => exists_tableResource hc)
    (fun _ _ => hr.types _) Stack.empty
  refine htables.bind fun stack r' ⟨hstored, _⟩ => Emit.ends_pure ?_
  intro table ht
  obtain ⟨resource, hresource, hlookup⟩ := hstored table ht
  exact storesKeys_of_resource hresource hlookup

end Infra

end SchemaGen
