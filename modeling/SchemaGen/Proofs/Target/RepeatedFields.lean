import SchemaGen.Proofs.Target.MatchingResolvers

/-!
# Fields that a type repeats

The fields of a declared type are those of an envelope, the attributes of an entity, or the attributes that
a key names. Envelopes have three fields, and the attributes of an entity have different names; but a key
may name an attribute twice, as the loader accepts keys that are sorted by the attribute that tells their
partition. The input that is made from such a key then has the field twice, unless the key is that of an
index and another one stands for the name of its input.

Results:
1. `not_isDistinct_iff_of_brings`: which types of an entity repeat a field.
2. `exists_brings_of_fragment`: the types that a fragment yields are those of its entity and of object types.
3. `tellsRepeats_of_catalog`: which types of which entities repeat a field.
4. `exists_field_repeated`: a table with a key that names an attribute twice.
-/

namespace SchemaGen

open Emission

variable {c : Catalog} {t : Target} {e : Entity} {table : Table} {key : QueryKey} {d : TypeDecl}

/-- No two fields of the type have the same name. -/
def TypeDecl.IsDistinct (d : TypeDecl) : Prop := (d.fields.map Field.name).Nodup

/-- The attributes that a query takes: those that it requires, and the one that may narrow it. -/
def QueryKey.attributes (key : QueryKey) : List String := key.required ++ key.optional.toList

/-- The type is an input of the table that takes an attribute twice, as the key does that it is made from:
the primary key, for what deletes an item, or the query key that stands for its name. -/
def Table.Repeats (table : Table) (d : TypeDecl) : Prop :=
  (deleteDecl table = .ok d ∧ ¬ table.primaryKey.Nodup) ∨
    ∃ key, table.firstKey? d.name = some key ∧ queryDecl table key = .ok d ∧ ¬ key.attributes.Nodup

/-- The table has an input that takes an attribute twice: it is sorted by the attribute that tells its
partitions, or one of its indexes is and stands for the name of its input. -/
def Table.RepeatsKey (table : Table) : Prop :=
  table.sort = some table.partition ∨ ∃ i ∈ table.indexes, i.sort = some i.partition ∧
    table.firstKey? (Naming.queryInput table.name [i.partition]) =
      some ⟨[i.partition], i.sort, some i.name⟩

/-! ## Types of an entity -/

theorem nodup_primaryKey_iff : table.primaryKey.Nodup ↔ table.sort ≠ some table.partition := by
  unfold Table.primaryKey
  cases table.sort with
  | none => simp
  | some sort => simp [eq_comm]

theorem names_queryDecl (h : queryDecl table key = .ok d) : d.fields.map Field.name = key.attributes := by
  have hfields := congrArg (List.map Prod.fst) (Infra.fields_queryDecl h)
  simpa [QueryKey.attributes, Function.comp_def] using hfields

theorem names_deleteDecl (h : deleteDecl table = .ok d) : d.fields.map Field.name = table.primaryKey := by
  have hfields := congrArg (List.map Prod.fst) (Infra.fields_deleteDecl h)
  simpa [Function.comp_def] using hfields

/-- Types whose fields carry the attributes of an entity repeat none. -/
theorem isDistinct_of_attributes {attributes : List Attribute} {required : Attribute → Bool}
    (hu : (attributes.map Attribute.name).Nodup)
    (h : d.fields = attributes.map fun a => .ofAttribute a (required a)) : d.IsDistinct := by
  unfold TypeDecl.IsDistinct
  rw [h, List.map_map]
  exact hu

theorem isDistinct_envelope (name description : String) (data : Shape) :
    (envelope name description data).IsDistinct := by
  show ["statusCode", "message", "data"].Nodup
  decide

/-- A type that is made from a key which names an attribute twice has the field twice. -/
theorem Table.Repeats.not_isDistinct (h : table.Repeats d) : ¬ d.IsDistinct := by
  unfold TypeDecl.IsDistinct
  rcases h with ⟨hdecl, hkey⟩ | ⟨key, -, hdecl, hkey⟩
  · rw [names_deleteDecl hdecl]
    exact hkey
  · rw [names_queryDecl hdecl]
    exact hkey

/-- Of the types that an entity brings, only those that are made from keys repeat a field. -/
theorem not_isDistinct_iff_of_brings (hu : (e.attributes.map Attribute.name).Nodup) (h : Brings e d) :
    ¬ d.IsDistinct ↔ ∃ table, e = .table table ∧ table.Repeats d := by
  constructor
  · intro hd
    rcases h with hown | ⟨table, rfl, key, hfirst, hdecl⟩
    · rcases fields_of_mem_ownDecls hown with ⟨required, hfields⟩ | ⟨table, rfl, rfl | rfl | hdecl⟩
      · exact absurd (isDistinct_of_attributes hu hfields) hd
      · exact absurd (isDistinct_envelope _ _ _) hd
      · exact absurd (isDistinct_envelope _ _ _) hd
      · exact ⟨table, rfl, .inl ⟨hdecl, names_deleteDecl hdecl ▸ hd⟩⟩
    · exact ⟨table, rfl, .inr ⟨key, hfirst, hdecl, names_queryDecl hdecl ▸ hd⟩⟩
  · rintro ⟨table, -, hrepeats⟩
    exact hrepeats.not_isDistinct

/-! ## Keys of a table -/

/-- A query key that stands for a name and names an attribute twice is that of both primary attributes, or
that of an index. -/
theorem repeatsKey_of_firstKey? {name : String} (hfirst : table.firstKey? name = some key)
    (hkey : ¬ key.attributes.Nodup) : table.RepeatsKey := by
  obtain ⟨hmem, hname⟩ := of_firstKey?_eq_some hfirst
  rcases Infra.mem_queryKeys_iff.mp hmem with rfl | ⟨sort, hsort, rfl | rfl⟩ | ⟨i, hi, rfl⟩
  · exact absurd (List.nodup_singleton _) hkey
  · exact absurd (List.nodup_singleton _) hkey
  · have hsame : table.partition = sort := by simpa [QueryKey.attributes] using hkey
    exact .inl (hsame ▸ hsort)
  · have hsame : i.sort = some i.partition := by
      cases hs : i.sort with
      | none => simp [QueryKey.attributes, hs] at hkey
      | some sort =>
        have he : i.partition = sort := by simpa [QueryKey.attributes, hs] using hkey
        rw [he]
    exact .inr ⟨i, hi, hsame, hname ▸ hfirst⟩

theorem repeatsKey_of_repeats (h : table.Repeats d) : table.RepeatsKey := by
  rcases h with ⟨-, hkey⟩ | ⟨key, hfirst, -, hkey⟩
  · exact .inl (not_not.mp (mt nodup_primaryKey_iff.mpr hkey))
  · exact repeatsKey_of_firstKey? hfirst hkey

/-- A table whose keys are declared brings an input for each of them, also for one that names an attribute
twice. -/
theorem exists_repeats (hk : ∀ k ∈ table.keyAttributes, ∃ a, table.attribute? k = some a)
    (h : table.RepeatsKey) : ∃ d, Brings (.table table) d ∧ table.Repeats d ∧
      d.name ∈ Corpus.generatedNames (.table table) := by
  rcases h with hsort | ⟨i, hi, hsort, hfirst⟩
  · obtain ⟨d, hd⟩ := exists_deleteDecl hk
    refine ⟨d, .inl (mem_ownDecls_table.mpr (by simp [hd])), .inl ⟨hd, ?_⟩, ?_⟩
    · rw [nodup_primaryKey_iff]
      exact not_not.mpr hsort
    · rw [(deleteDecl_eq_ok hd).1]
      simp [Corpus.generatedNames]
  · have hmem := (of_firstKey?_eq_some hfirst).1
    obtain ⟨d, hd⟩ := exists_queryDecl hk hmem
    have hname : d.name = Naming.queryInput table.name [i.partition] := (queryDecl_eq_ok hd).1
    rw [← hname] at hfirst
    refine ⟨d, .inr ⟨table, rfl, _, hfirst, hd⟩, .inr ⟨_, hfirst, hd, ?_⟩, ?_⟩
    · simp [QueryKey.attributes, hsort]
    · rw [hname]
      exact List.mem_append.mpr (.inr (List.mem_map.mpr ⟨_, hmem, rfl⟩))

/-! ## Fragments -/

/-- A declared type belongs to the entity at hand, or to an object type of the catalog. -/
def Near (c : Catalog) (e : Entity) : Declaration → Prop
  | .type d => Belongs e d ∨ ∃ o : ObjectType, c.entity? o.name = some (.object o) ∧ Belongs (.object o) d
  | .operation _ => True

theorem only_of_ends {α : Type} {P : α → Prop} {x : Emit (List α)}
    (h : ∀ r, x.Ends r fun ds _ => ∀ d ∈ ds, P d) : Only P x := fun r _ _ hx =>
  (h r).of_eq_ok hx

theorem near_single (hc : c.IsSound) (he : c.entity? e.name = some e) (g : Fragment) :
    Only (Near c e) (single c t e g) := by
  have hown : g ∈ ownFragments → Only (Near c e) (single c t e g) := fun hg => only_of_ends fun r => by
    refine (single_declares hc he hg r).mono fun ds _ h d hd => ?_
    obtain ⟨decl, rfl, hb⟩ := h.step.declared d hd
    exact .inl hb
  cases g with
  | embeddedTypes =>
    refine only_total fun r d hd => ?_
    obtain ⟨decl, rfl, o, ho, -, hb⟩ := (embeddedTypes_spec hc e r).1.step.declared d hd
    exact .inr ⟨o, ho, hb⟩
  | operations =>
    refine only_of_ends fun r => (operations_ends c t e r).mono fun ds _ h d hd => ?_
    cases d with
    | operation op => trivial
    | type decl =>
      have hmem := Declaration.mem_types_iff.mpr hd
      rw [h.types_eq_nil] at hmem
      cases hmem
  | modelArtifact => exact only_nil
  | apiSchemaEntity => exact only_nil
  | _ => exact hown (by decide)

theorem near_fragment (hc : c.IsSound) (he : c.entity? e.name = some e) (g : Fragment) :
    Only (Near c e) (Emit.fragment c t e g) :=
  (only_collect fun f _ => near_single hc he f).append (near_single hc he g)

/-- The types that a fragment of an entity yields are brought by the entity, or by an object type. -/
theorem exists_brings_of_fragment (hc : c.IsSound) (he : c.entity? e.name = some e) {g : Fragment}
    {r r' : Registry} {ds : List Declaration} (hrun : Emit.fragment c t e g r = (.ok ds, r'))
    (hd : .type d ∈ ds) : ∃ f, c.entity? f.name = some f ∧ Brings f d ∧ (f = e ∨ f.table? = none) := by
  obtain ⟨f, hf, hbrings⟩ := only_fragment hc he g r ds r' hrun _ hd
  refine ⟨f, hf, hbrings, ?_⟩
  rcases near_fragment hc he g r ds r' hrun _ hd with hb | ⟨o, ho, hb⟩
  · exact .inl (entity_eq_of_name hc hf he hbrings.belongs hb rfl)
  · rw [entity_eq_of_name (f := .object o) hc hf ho hbrings.belongs hb rfl]
    exact .inr rfl

/-! ## Catalogs -/

/-- Which types that the fragments of an entity yield repeat a field: the inputs of a table that are made
from a key which names an attribute twice; and there is none exactly when the table has no such key. -/
structure TellsRepeats (c : Catalog) (e : Entity) : Prop where
  repeated : ∀ t g r ds r', Emit.fragment c t e g r = (.ok ds, r') → ∀ d, .type d ∈ ds →
    (¬ d.IsDistinct ↔ ∃ table, e = .table table ∧ table.Repeats d)
  never : (∀ t g r ds r', Emit.fragment c t e g r = (.ok ds, r') → ∀ d, .type d ∈ ds → d.IsDistinct) ↔
    ∀ table, e = .table table → ¬ table.RepeatsKey

theorem tellsRepeats_of_catalog {corpus : Corpus} (hp : corpus.IsParsed) (h : corpus.catalog = .ok c)
    (he : e ∈ c.entityList) : TellsRepeats c e := by
  have hc := Corpus.isSound_of_catalog hp h
  have hentity := hc.entity?_of_mem he
  have hrepeated : ∀ t g r ds r', Emit.fragment c t e g r = (.ok ds, r') → ∀ d, .type d ∈ ds →
      (¬ d.IsDistinct ↔ ∃ table, e = .table table ∧ table.Repeats d) := by
    intro t g r ds r' hrun d hd
    obtain ⟨f, hf, hbrings, hsame⟩ := exists_brings_of_fragment hc hentity hrun hd
    have hiff := not_isDistinct_iff_of_brings (hc.distinct _ f hf) hbrings
    rcases hsame with rfl | hobject
    · exact hiff
    · -- the types of an object type repeat nothing
      refine ⟨fun hnot => ?_, fun ⟨_, _, hrepeats⟩ => hrepeats.not_isDistinct⟩
      obtain ⟨table, rfl, -⟩ := hiff.mp hnot
      cases hobject
  refine ⟨hrepeated, ?_, ?_⟩
  · rintro hall table rfl hkey
    have ht : table ∈ c.tables := List.mem_filterMap.mpr ⟨.table table, he, rfl⟩
    obtain ⟨d, hbrings, hrepeats, hname⟩ :=
      exists_repeats (fun _ hk => hc.attribute?_of_key hentity hk) hkey
    obtain ⟨ds, r', hrun, hd⟩ :=
      (isDeclared_of_brings hc ht hbrings hname).declares .modelArtifact (by simp) .rust .empty rfl
    exact hrepeats.not_isDistinct (hall _ _ _ ds r' hrun d hd)
  · intro hnone t g r ds r' hrun d hd
    by_contra hnot
    obtain ⟨table, rfl, hrepeats⟩ := (hrepeated t g r ds r' hrun d hd).mp hnot
    exact hnone table rfl (repeatsKey_of_repeats hrepeats)

/-- The sources of two tables with keys that name an attribute twice: the primary key of the one, and the key
of an index of the other, for which its primary key stands. -/
def doubledSources : List (Path × List String) :=
  [(⟨"Visit.yml"⟩, ["name: Visit", "kind: table", "version: 1", "model:",
      "  keys:", "    primary: {partition: id, sort: id}",
      "  attributes: [{name: id, type: string}]"]),
    (⟨"Room.yml"⟩, ["name: Room", "kind: table", "version: 1", "model:",
      "  keys:", "    primary: {partition: id}", "    secondary:",
      "    - {name: by-id, partition: id, sort: id}",
      "  attributes: [{name: id, type: string}]"])]

/-- The documents that these sources are parsed to. -/
def doubled : Corpus :=
  let id : AttributeDoc := ⟨"id", .scalar .string, false, none, none⟩
  ⟨[⟨⟨"Visit.yml"⟩, "Visit", none, .table ⟨"1", "id", some "id", none, [id]⟩⟩,
    ⟨⟨"Room.yml"⟩, "Room", none,
      .table ⟨"1", "id", none, some [⟨"by-id", .gsi, "id", some "id", .all⟩], [id]⟩⟩], []⟩

theorem doubled_isParsed : doubled.IsParsed :=
  Corpus.isParsed_of_mapM (s := doubledSources) (by decide +kernel) (.inl rfl)

/-- The catalog of these documents. -/
def doubledCatalog : Catalog := doubled.catalog.toOption.getD .empty

theorem catalog_doubled : doubled.catalog = .ok doubledCatalog := by decide +kernel

/-- The table that is sorted by the attribute that tells its partitions. -/
def visit : Table := ⟨"Visit", "1", none, [⟨"id", .scalar .string, false, none⟩], "id", some "id", []⟩

/-- The table with an index that is. -/
def room : Table :=
  ⟨"Room", "1", none, [⟨"id", .scalar .string, false, none⟩], "id", none,
    [⟨"by-id", .gsi, "id", some "id", .all⟩]⟩

/-- Of the two tables the first one has an input that repeats a field. -/
theorem tellsRepeats_doubled : doubled.IsParsed ∧ doubled.catalog = .ok doubledCatalog ∧
    .table visit ∈ doubledCatalog.entityList ∧ visit.RepeatsKey ∧
      TellsRepeats doubledCatalog (.table visit) ∧
    .table room ∈ doubledCatalog.entityList ∧ ¬ room.RepeatsKey ∧
      TellsRepeats doubledCatalog (.table room) := by
  have hvisit : .table visit ∈ doubledCatalog.entityList := by decide +kernel
  have hroom : .table room ∈ doubledCatalog.entityList := by decide +kernel
  refine ⟨doubled_isParsed, catalog_doubled, hvisit, .inl rfl,
    tellsRepeats_of_catalog doubled_isParsed catalog_doubled hvisit, hroom, ?_,
    tellsRepeats_of_catalog doubled_isParsed catalog_doubled hroom⟩
  rintro (hsort | ⟨i, hi, -, hfirst⟩)
  · cases hsort
  · -- the primary key asks for the attribute first
    rw [List.mem_singleton.mp hi] at hfirst
    revert hfirst
    decide +kernel

/-- The input that deletes an item of a table has a field twice. -/
theorem exists_field_repeated : ∃ (corpus : Corpus) (c : Catalog) (table : Table), corpus.IsParsed ∧
    corpus.catalog = .ok c ∧ table ∈ c.tables ∧ ∃ ds r' d,
      Emit.fragment c .rust (.table table) .crudInputs .empty = (.ok ds, r') ∧ .type d ∈ ds ∧
        d.name = Naming.deleteInput table.name ∧ d.fields.map Field.name = ["id", "id"] := by
  have hrun : ∃ ds r' d, Emit.fragment doubledCatalog .rust (.table visit) .crudInputs .empty = (.ok ds, r') ∧
      .type d ∈ ds ∧ d.name = Naming.deleteInput visit.name ∧ d.fields.map Field.name = ["id", "id"] := by
    refine ⟨_, _, ⟨Naming.deleteInput "Visit", .input, some "Input for deleting a Visit item",
      [⟨"id", .shape (.scalar .string), true, none⟩, ⟨"id", .shape (.scalar .string), true, none⟩]⟩,
      rfl, ?_, rfl, rfl⟩
    decide +kernel
  exact ⟨doubled, doubledCatalog, visit, doubled_isParsed, catalog_doubled, by decide +kernel, hrun⟩

end SchemaGen
