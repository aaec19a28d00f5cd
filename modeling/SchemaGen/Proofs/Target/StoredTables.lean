import SchemaGen.Proofs.Document.Indexes
import SchemaGen.Proofs.Target.EnumLists
import SchemaGen.Proofs.Target.StoredKeys

/-!
# Tables in the storage description

The store takes a table's description apart into attribute definitions, a key and indexes, and takes it
only where they fit together. The description is read here as the store reads it; what is read for a
table of accepted documents says just what the table says, and each attribute that a key names is
defined once, with the type that the attribute has as a key.

Results:
1. `readKey?_keySchema`, `readIndex?_index`: what keys and indexes are read as.
2. `exists_readTable?`: a table whose keys are declared has a description, and what it is read as.
3. `exists_describes_of_catalog`: the description of every table of accepted documents fits together.
-/

namespace SchemaGen

/-- A list, each item read. -/
def Json.listOf? {α : Type} (read : Json → Option α) : Json → Option (List α)
  | .list items => items.mapM read
  | _ => none

theorem Json.listOf?_map {α β : Type} {read : Json → Option β} {write : α → Json} {f : α → β} {xs : List α}
    (h : ∀ x ∈ xs, read (write x) = some (f x)) :
    Json.listOf? read (.list (xs.map write)) = some (xs.map f) := mapM_map_eq_some h

namespace Infra

/-! ## Reading a description -/

/-- An attribute and what is said of it: its type, or its role in a key. -/
def readNamed? (what : String) (item : Json) : Option (String × String) := do
  let name ← (item.member? "AttributeName").bind Json.text?
  let said ← (item.member? what).bind Json.text?
  return (name, said)

/-- A key: an attribute for `HASH`, perhaps one for `RANGE`, and nothing else. -/
def readKey? (schema : Json) : Option StoredKey :=
  match schema.listOf? (readNamed? "KeyType") with
  | some [(hash, "HASH")] => some ⟨hash, none⟩
  | some [(hash, "HASH"), (range, "RANGE")] => some ⟨hash, some range⟩
  | _ => none

/-- An index as the store sees it. -/
structure StoredIndex where
  name : String
  key : StoredKey
  /-- The attributes that it carries by name, if it has a list of them. -/
  carried : Option (List String)
  deriving DecidableEq, Repr

/-- The attributes that a projection lists, if it has a list of them. -/
def readCarried? (projection : Json) : Option (Option (List String)) :=
  match projection.member? "NonKeyAttributes" with
  | some names => (names.listOf? Json.text?).map some
  | none => some none

/-- An index: its name, its key and what it carries. -/
def readIndex? (entry : Json) : Option StoredIndex := do
  let name ← (entry.member? "IndexName").bind Json.text?
  let key ← (entry.member? "KeySchema").bind readKey?
  let carried ← (entry.member? "Projection").bind readCarried?
  return ⟨name, key, carried⟩

/-- The indexes that are listed under a name, none without a list. -/
def readIndexes? (properties : Json) (part : String) : Option (List StoredIndex) :=
  match properties.member? part with
  | some entries => entries.listOf? readIndex?
  | none => some []

/-- A table as the store sees it. -/
structure StoredTable where
  /-- The defined attributes, each with its type. -/
  definitions : List (String × String)
  key : StoredKey
  globals : List StoredIndex
  locals : List StoredIndex
  deriving DecidableEq, Repr

/-- The table that a resource describes. -/
def readTable? (resource : Json) : Option StoredTable := do
  let properties ← resource.member? "Properties"
  let definitions ← (properties.member? "AttributeDefinitions").bind
    (Json.listOf? (readNamed? "AttributeType"))
  let key ← (properties.member? "KeySchema").bind readKey?
  let globals ← readIndexes? properties "GlobalSecondaryIndexes"
  let locals ← readIndexes? properties "LocalSecondaryIndexes"
  return ⟨definitions, key, globals, locals⟩

/-- The attributes that a key names. -/
def StoredKey.attributes (key : StoredKey) : List String := key.hash :: key.range.toList

namespace StoredTable

/-- All indexes, of either kind. -/
def indexes (s : StoredTable) : List StoredIndex := s.globals ++ s.locals

/-- The attributes that the key of the table names, or the key of an index. -/
def named (s : StoredTable) : List String :=
  s.key.attributes ++ s.indexes.flatMap fun i => i.key.attributes

end StoredTable

/-! ## What a description is read as -/

/-- What an index is read as. -/
def stored (i : Index) : StoredIndex :=
  ⟨i.name, ⟨i.partition, i.sort⟩, match i.projection with
    | .including names => some names
    | _ => none⟩

/-- What the indexes of a kind are read as, in declared order. -/
def storedOf (table : Table) (kind : IndexKind) : List StoredIndex :=
  (table.indexes.filter fun i => i.kind == kind).map stored

variable {table : Table}

theorem readKey?_keySchema (hash : String) (range : Option String) :
    readKey? (keySchema hash range) = some ⟨hash, range⟩ := by
  cases range <;> rfl

theorem readCarried?_projection (p : Projection) :
    readCarried? (projection p) = some (match p with
      | .including names => some names
      | _ => none) := by
  cases p with
  | all => rfl
  | keysOnly => rfl
  | including names =>
    have hlist : Json.listOf? Json.text? (.list (names.map Json.text)) = some (names.map id) :=
      Json.listOf?_map fun _ _ => rfl
    show (Json.listOf? Json.text? (.list (names.map Json.text))).map some = _
    rw [hlist, List.map_id]
    rfl

theorem readIndex?_index (i : Index) : readIndex? (index i) = some (stored i) := by
  show ((readKey? (keySchema i.partition i.sort)).bind fun key =>
    (readCarried? (projection i.projection)).bind fun carried =>
      some (⟨i.name, key, carried⟩ : StoredIndex)) = _
  rw [readKey?_keySchema, readCarried?_projection]
  rfl

theorem readIndexes?_indexesOf {members : List (String × Json)} {kind : IndexKind} {name : String}
    (h : members.lookup name = (indexesOf table kind name).lookup name) :
    readIndexes? (.object members) name = some (storedOf table kind) := by
  unfold readIndexes? storedOf
  show (match members.lookup name with
    | some entries => entries.listOf? readIndex?
    | none => some []) = _
  rw [h]
  unfold indexesOf
  cases table.indexes.filter fun i => i.kind == kind with
  | nil => rfl
  | cons i rest =>
    simp only [List.isEmpty_cons, Bool.false_eq_true, if_false, List.lookup_cons, beq_self_eq_true]
    exact Json.listOf?_map fun i _ => readIndex?_index i

/-- The type that an attribute has as a key. -/
def HasKeyType (table : Table) (name type : String) : Prop :=
  ∃ a, table.attribute? name = some a ∧ a.shape.keyType? = some type

/-- Attributes that can be keys have definitions, which say their types as keys. -/
theorem exists_definitions {names : List String}
    (h : ∀ name ∈ names, ∃ a, table.attribute? name = some a ∧ a.shape.keyType?.isSome = true) :
    ∃ written definitions, names.mapM (keyDefinition table) = .ok written ∧
      written.mapM (readNamed? "AttributeType") = some definitions ∧
      definitions.map Prod.fst = names ∧ ∀ d ∈ definitions, HasKeyType table d.1 d.2 := by
  induction names with
  | nil => exact ⟨[], [], rfl, rfl, rfl, by simp⟩
  | cons name rest ih =>
    obtain ⟨⟨a, ha, hkey⟩, hrest⟩ := List.forall_mem_cons.mp h
    obtain ⟨type, htype⟩ := Option.isSome_iff_exists.mp hkey
    obtain ⟨written, definitions, hwritten, hread, hnames, htypes⟩ := ih hrest
    have hdefinition : ∃ item, keyDefinition table name = .ok item ∧
        readNamed? "AttributeType" item = some (name, type) := by
      unfold keyDefinition
      rw [ha, ← mapShape_storage_key htype]
      exact ⟨_, rfl, rfl⟩
    obtain ⟨item, hitem, hsaid⟩ := hdefinition
    refine ⟨item :: written, (name, type) :: definitions, ?_, ?_, ?_, ?_⟩
    · rw [List.mapM_cons, hitem, hwritten]
      rfl
    · rw [List.mapM_cons, hsaid, hread]
      rfl
    · rw [List.map_cons, hnames]
    · exact List.forall_mem_cons.mpr ⟨⟨a, ha, htype⟩, htypes⟩

/-- A table whose keys are declared has a description, which says its key and its indexes as they are and
defines each key attribute. -/
theorem exists_readTable? (h : ∀ name ∈ table.keyAttributes,
      ∃ a, table.attribute? name = some a ∧ a.shape.keyType?.isSome = true) :
    ∃ resource definitions, tableResource table = .ok resource ∧
      readTable? resource = some ⟨definitions, ⟨table.partition, table.sort⟩, storedOf table .gsi,
        storedOf table .lsi⟩ ∧
      definitions.map Prod.fst = table.keyAttributes ∧ ∀ d ∈ definitions, HasKeyType table d.1 d.2 := by
  obtain ⟨written, definitions, hwritten, hread, hnames, htypes⟩ := exists_definitions h
  have hmade : ∃ resource, tableResource table = .ok resource := by
    unfold tableResource
    rw [hwritten]
    exact ⟨_, rfl⟩
  obtain ⟨resource, hresource⟩ := hmade
  obtain ⟨members, hmembers, hkey, hgsi, hlsi, written', hwritten', hdefined⟩ := exists_properties hresource
  cases hwritten.symm.trans hwritten'
  have hdefinitions : ((Json.object members).member? "AttributeDefinitions").bind
      (Json.listOf? (readNamed? "AttributeType")) = some definitions := by
    show (members.lookup _).bind _ = _
    rw [hdefined]
    exact hread
  have hprimary : ((Json.object members).member? "KeySchema").bind readKey? =
      some ⟨table.partition, table.sort⟩ := by
    show (members.lookup _).bind _ = _
    rw [hkey]
    exact readKey?_keySchema _ _
  refine ⟨resource, definitions, hresource, ?_, hnames, htypes⟩
  unfold readTable?
  rw [hmembers]
  simp only [Option.bind_eq_bind, Option.bind_some, hdefinitions, hprimary, readIndexes?_indexesOf hgsi,
    readIndexes?_indexesOf hlsi]
  rfl

/-! ## What the store asks -/

/-- The description says what the table says, and fits together: each attribute that a key names is
defined once and as nothing but a key's type, indexes have different names, local ones lie in the
partitions of the table, and attributes that are carried by name are declared. -/
structure StoredTable.Describes (s : StoredTable) (table : Table) : Prop where
  once : (s.definitions.map Prod.fst).Nodup
  defined : ∀ name, name ∈ s.definitions.map Prod.fst ↔ name ∈ s.named
  typed : ∀ d ∈ s.definitions, HasKeyType table d.1 d.2 ∧ d.2 ∈ ["S", "N", "B"]
  key : s.key = ⟨table.partition, table.sort⟩
  globals : s.globals = storedOf table .gsi
  locals : s.locals = storedOf table .lsi
  distinct : (s.indexes.map StoredIndex.name).Nodup
  inPartition : ∀ i ∈ s.locals, i.key.hash = s.key.hash ∧ i.key.range.isSome = true
  carried : ∀ i ∈ s.indexes, ∀ names, i.carried = some names →
    names ≠ [] ∧ ∀ name ∈ names, ∃ a ∈ table.attributes, a.name = name

theorem nodup_firstSeen (seen xs : List String) : (firstSeen seen xs).Nodup := by
  induction xs generalizing seen with
  | nil => exact List.nodup_nil
  | cons x rest ih =>
    unfold firstSeen
    split
    · exact ih seen
    · exact List.nodup_cons.mpr ⟨fun hx => ((mem_firstSeen _ _ _).mp hx).2 List.mem_cons_self, ih _⟩

theorem mem_keyTypes {shape : Shape} {type : String} (h : shape.keyType? = some type) :
    type ∈ ["S", "N", "B"] := by
  unfold Shape.keyType? at h
  split at h <;> cases h <;> decide

/-- The indexes of both kinds are those of the table. -/
theorem mem_storedOf_iff {s : StoredIndex} :
    s ∈ storedOf table .gsi ++ storedOf table .lsi ↔ ∃ i ∈ table.indexes, stored i = s := by
  unfold storedOf
  rw [← List.map_append, List.mem_map]
  simp only [mem_filter_kinds_iff]

/-- Taken by kind, indexes of different names have different names. -/
theorem nodup_storedOf (h : (table.indexes.map Index.name).Nodup) :
    ((storedOf table .gsi ++ storedOf table .lsi).map StoredIndex.name).Nodup := by
  have hkinds : (table.indexes.filter fun i => i.kind == .lsi) =
      table.indexes.filter fun i => !(i.kind == .gsi) :=
    List.filter_congr fun i _ => by cases i.kind <;> rfl
  unfold storedOf
  rw [hkinds, ← List.map_append, List.map_map]
  exact ((List.filter_append_perm _ table.indexes).map Index.name).nodup_iff.mpr h

/-- What is read for a table names, in its keys, the key attributes of the table. -/
theorem mem_named_iff {definitions : List (String × String)} {name : String} :
    name ∈ StoredTable.named ⟨definitions, ⟨table.partition, table.sort⟩, storedOf table .gsi,
      storedOf table .lsi⟩ ↔ name ∈ table.keyAttributes := by
  have hindexes : (∃ s ∈ storedOf table .gsi ++ storedOf table .lsi, name ∈ s.key.attributes) ↔
      ∃ i ∈ table.indexes, name ∈ i.key := by
    simp only [mem_storedOf_iff]
    constructor
    · rintro ⟨_, ⟨i, hi, rfl⟩, hn⟩
      exact ⟨i, hi, hn⟩
    · rintro ⟨i, hi, hn⟩
      exact ⟨stored i, ⟨i, hi, rfl⟩, hn⟩
  unfold StoredTable.named StoredTable.indexes
  rw [List.mem_append, List.mem_flatMap, hindexes, Table.mem_keyAttributes]
  rfl

/-! ## Tables of accepted documents -/

/-- The description of the table of an accepted document fits together. -/
theorem exists_describes_of_parse {file : Path} {source : String} {d : SchemaDoc}
    {enums : NameMap (List String)} (hd : SchemaDoc.parse file source = .ok d)
    (ht : Corpus.toEntity enums d = .table table) :
    ∃ resource stored, tableResource table = .ok resource ∧ readTable? resource = some stored ∧
      stored.Describes table := by
  obtain ⟨doc, hdoc, hattrs, hkeys⟩ := Corpus.toEntity_eq_table ht
  have hsame : table.partition = doc.partition ∧ table.indexes = doc.indexes.getD [] := by
    unfold Corpus.toEntity at ht
    rw [hdoc] at ht
    cases ht
    exact ⟨rfl, rfl⟩
  obtain ⟨hpartition, hindexes⟩ := hsame
  obtain ⟨heach, hdistinct⟩ := SchemaDoc.hasIndexes_of_parse hd hdoc
  rw [← hpartition, ← hindexes] at heach
  rw [← hindexes] at hdistinct
  have hdeclared : ∀ name ∈ table.keyAttributes,
      ∃ a, table.attribute? name = some a ∧ a.shape.keyType?.isSome = true := fun name hn =>
    Corpus.attribute?_of_isKey hattrs ((SchemaDoc.isSound_of_parse hd).keys doc hdoc name
      (hkeys ▸ ((mem_firstSeen _ _ _).mp hn).1))
  obtain ⟨resource, definitions, hresource, hread, hnames, htypes⟩ := exists_readTable? hdeclared
  refine ⟨resource, _, hresource, hread, ?_⟩
  constructor
  case once => exact hnames ▸ nodup_firstSeen _ _
  case defined => exact fun name => (hnames ▸ mem_named_iff).symm
  case typed =>
    intro d hd
    obtain ⟨a, ha, htype⟩ := htypes d hd
    exact ⟨⟨a, ha, htype⟩, mem_keyTypes htype⟩
  case key => rfl
  case globals => rfl
  case locals => rfl
  case distinct => exact nodup_storedOf hdistinct
  case inPartition =>
    intro s hs
    obtain ⟨i, hi, rfl⟩ := List.mem_map.mp hs
    obtain ⟨hi, hkind⟩ := List.mem_filter.mp hi
    exact ⟨(heach i hi).inPartition (by simpa using hkind), (heach i hi).sorted (by simpa using hkind)⟩
  case carried =>
    intro s hs names hcarried
    obtain ⟨i, hi, rfl⟩ := mem_storedOf_iff.mp hs
    have hlist : i.projection = .including names := by
      unfold stored at hcarried
      dsimp only at hcarried
      split at hcarried
      · next h =>
        cases hcarried
        exact h
      · cases hcarried
    obtain ⟨hsome, hall⟩ := (heach i hi).listed names hlist
    refine ⟨hsome, fun name hn => ?_⟩
    obtain ⟨a, ha, rfl⟩ := hall name hn
    exact ⟨Corpus.toAttribute enums a, hattrs ▸ List.mem_map_of_mem ha, rfl⟩

/-- Documents that were accepted and make a catalog give every table of it a description that fits
together. -/
theorem exists_describes_of_catalog {corpus : Corpus} {c : Catalog}
    (hp : ∀ d ∈ corpus.documents, ∃ file source, SchemaDoc.parse file source = .ok d)
    (hc : corpus.catalog = .ok c) (ht : table ∈ c.tables) :
    ∃ resource stored, tableResource table = .ok resource ∧ readTable? resource = some stored ∧
      stored.Describes table := by
  obtain ⟨enums, owned, h⟩ := Corpus.assembled_of_catalog hc
  obtain ⟨n, hn⟩ := h.ordered_entities.mem_values_iff.mp (Catalog.mem_entityList_of_mem_tables ht)
  have hentity : c.entity? n = some (.table table) := hn
  rw [h.catalog, Corpus.entity?_assemble enums h.distinct] at hentity
  obtain ⟨d, hd, -, htable⟩ := hentity
  obtain ⟨file, source, hparse⟩ := hp d hd
  exact exists_describes_of_parse hparse htable

/-- The source of a sorted table with a local index, which carries an attribute by name, and with a global
one on an enum. -/
def parcelSources : List (Path × List String) :=
  [(⟨"Parcel.yml"⟩, ["name: Parcel", "kind: table", "version: 1", "model:",
    "  keys:", "    primary: {partition: depot, sort: placed}", "    secondary:",
    "    - name: by-weight", "      kind: LSI", "      partition: depot", "      sort: weight",
    "      projectionType: INCLUDE", "      projectedAttributes: [note]",
    "    - {name: by-state, partition: state, sort: placed, projectionType: KEYS_ONLY}",
    "  attributes: [{name: depot, type: string}, {name: placed, type: timestamp},",
    "    {name: weight, type: number}, {name: note, type: string},",
    "    {name: state, enumType: State, enumValues: [OPEN, SENT]}]"])]

/-- The document that this source is parsed to. -/
def parcel : Corpus :=
  let attr (name : String) (shape : Shape) : AttributeDoc := ⟨name, shape, false, none, none⟩
  ⟨[⟨⟨"Parcel.yml"⟩, "Parcel", none, .table ⟨"1", "depot", some "placed",
    some [⟨"by-weight", .lsi, "depot", some "weight", .including ["note"]⟩,
      ⟨"by-state", .gsi, "state", some "placed", .keysOnly⟩],
    [attr "depot" (.scalar .string), attr "placed" (.scalar .timestamp), attr "weight" (.scalar .number),
      attr "note" (.scalar .string), ⟨"state", .enum "State" [], false, none, some ["OPEN", "SENT"]⟩]⟩⟩],
    []⟩

theorem parcel_isParsed : parcel.IsParsed :=
  Corpus.isParsed_of_mapM (s := parcelSources) (by decide +kernel) (.inl rfl)

/-- The catalog of this document. -/
def parcelCatalog : Catalog := parcel.catalog.toOption.getD .empty

theorem catalog_parcel : parcel.catalog = .ok parcelCatalog := by decide +kernel

/-- The table of the document. -/
def parcelTable : Table :=
  let attr (name : String) (shape : Shape) : Attribute := ⟨name, shape, false, none⟩
  ⟨"Parcel", "1", none,
    [attr "depot" (.scalar .string), attr "placed" (.scalar .timestamp), attr "weight" (.scalar .number),
      attr "note" (.scalar .string), attr "state" (.enum "State" ["OPEN", "SENT"])],
    "depot", some "placed",
    [⟨"by-weight", .lsi, "depot", some "weight", .including ["note"]⟩,
      ⟨"by-state", .gsi, "state", some "placed", .keysOnly⟩]⟩

/-- The table with both kinds of indexes has a description that fits together. -/
theorem exists_describes_parcel :
    (∀ d ∈ parcel.documents, ∃ file source, SchemaDoc.parse file source = .ok d) ∧
      parcel.catalog = .ok parcelCatalog ∧ parcelTable ∈ parcelCatalog.tables ∧
      ∃ resource stored, tableResource parcelTable = .ok resource ∧ readTable? resource = some stored ∧
        stored.Describes parcelTable := by
  have htable : parcelTable ∈ parcelCatalog.tables := by decide +kernel
  exact ⟨parcel_isParsed.documents, catalog_parcel, htable,
    exists_describes_of_catalog parcel_isParsed.documents catalog_parcel htable⟩

example : (tableResource parcelTable).toOption.bind readTable? = some
    { definitions := [("depot", "S"), ("placed", "S"), ("weight", "N"), ("state", "S")]
      key := ⟨"depot", some "placed"⟩
      globals := [⟨"by-state", ⟨"state", some "placed"⟩, none⟩]
      locals := [⟨"by-weight", ⟨"depot", some "weight"⟩, some ["note"]⟩] } := by
  decide +kernel

end Infra

end SchemaGen
