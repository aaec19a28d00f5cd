import SchemaGen.Proofs.Naming.Pascal
import SchemaGen.Proofs.Target.QueryNames
import SchemaGen.Proofs.Target.Stacks

/-!
# Logical ids

Resources and outputs of the stacks stand under logical ids, which are to hold letters and digits only. The ids
of tables and of what belongs to them are made from the names of entities, which hold nothing else. The id of
a resolver is made from Pascal case of the name of its operation, and there the attributes of a query come in:
one whose first word is a single letter may bring a `_`. No check of names looks at this.

Results:
1. `isLogicalId_mutation`, `isLogicalId_query_iff`: which resolvers have a logical id.
2. `mem_ids_resources_iff`: the ids in the description of the API.
3. `hasLogicalIds_of_catalog`: the ids of both stacks.
4. `exists_illegal_id`: a resolver without a logical id.
-/

namespace SchemaGen

open Emission Registry

namespace Infra

variable {c : Catalog} {o : Options} {r r' : Registry} {table : Table} {tables : List Table} {key : QueryKey}
  {op : Operation} {id s t verb : String}

/-- What a resource or an output may stand under: letters and digits. -/
def IsLogicalId (id : String) : Prop := id ≠ "" ∧ ∀ c ∈ id.toList, c.isAlphanum = true

/-- What stands in a section of a stack. -/
def idsIn (part : String) (stack : Json) : List String := (stack.part part).map Prod.fst

/-! ## Ids of tables and resolvers -/

theorem isLogicalId_append_iff (ht : IsLogicalId t) :
    IsLogicalId (s ++ t) ↔ ∀ c ∈ s.toList, c.isAlphanum = true := by
  unfold IsLogicalId
  rw [String.toList_append, List.forall_mem_append]
  constructor
  · exact fun h => h.2.1
  · intro h
    refine ⟨fun he => ht.1 ?_, h, ht.2⟩
    exact (String.append_eq_empty_iff.mp he).2

theorem isLogicalId_of_mem_ends (h : s ∈ ["Table", "Name", "DataSource", "Resolver"]) : IsLogicalId s := by
  simp only [List.mem_cons, List.not_mem_nil, or_false] at h
  rcases h with rfl | rfl | rfl | rfl <;> exact ⟨by decide, by simp⟩

/-- What stands for a table has logical ids. -/
theorem isLogicalId_of_isTypeName {n : String} (h : isTypeName n.toList = true) :
    IsLogicalId (Naming.tableLogicalId n) ∧ IsLogicalId (Naming.tableLogicalId n ++ "Name") ∧
      IsLogicalId (Naming.dataSource n) := by
  have halnum := isAlphanum_of_isTypeName h
  have htable : IsLogicalId (Naming.tableLogicalId n) :=
    (isLogicalId_append_iff (isLogicalId_of_mem_ends (by decide))).mpr halnum
  exact ⟨htable, (isLogicalId_append_iff (isLogicalId_of_mem_ends (by decide))).mpr htable.2,
    (isLogicalId_append_iff (isLogicalId_of_mem_ends (by decide))).mpr halnum⟩

theorem isLogicalId_resolverId_iff :
    IsLogicalId (resolverId op) ↔ ∀ c ∈ (Naming.toPascal op.name).toList, c.isAlphanum = true := by
  have hroot : ∀ c ∈ op.kind.root.toList, c.isAlphanum = true := by
    cases op.kind <;> simp [OperationKind.root]
  unfold resolverId
  rw [isLogicalId_append_iff (isLogicalId_of_mem_ends (by decide)), String.toList_append,
    List.forall_mem_append]
  exact ⟨fun h => h.2, fun h => ⟨hroot, h⟩⟩

theorem isTypeName_of_mem_tables (hc : c.IsSound) (ht : table ∈ c.tables) :
    isTypeName table.name.toList = true := hc.isTypeName_entity (Catalog.mem_entityList_of_mem_tables ht)

/-- The resolvers of mutations have logical ids. -/
theorem isLogicalId_mutation (h : isTypeName table.name.toList = true) (hv : verb ∈ Naming.verbs)
    (inputType : String) : IsLogicalId (resolverId (itemOperation table verb inputType)) := by
  have hverb : ∀ c ∈ (Naming.toPascal verb).toList, c.isAlphanum = true := by
    have hpascal : Naming.verbs.map Naming.toPascal = ["Create", "Update", "Delete"] := by decide
    have hmem := List.mem_map_of_mem (f := Naming.toPascal) hv
    rw [hpascal] at hmem
    simp only [List.mem_cons, List.not_mem_nil, or_false] at hmem
    rcases hmem with he | he | he <;> rw [he] <;> simp
  rw [isLogicalId_resolverId_iff]
  show ∀ c ∈ (Naming.toPascal (Naming.mutation verb table.name)).toList, c.isAlphanum = true
  rw [Naming.toPascal_mutation hv h, String.toList_append]
  exact List.forall_mem_append.mpr ⟨hverb, Naming.isAlphanum_toPascal h⟩

/-- The resolver of a query has a logical id unless an attribute that its key requires is parted. -/
theorem isLogicalId_query_iff (hc : c.IsSound) (ht : table ∈ c.tables) (hk : key ∈ table.queryKeys) :
    IsLogicalId (resolverId (queryOperation table key)) ↔ ∀ n ∈ key.required, Naming.isParted n = false := by
  have hname : isTypeName table.name.toList = true := isTypeName_of_mem_tables hc ht
  have hcamel := isCamelName_of_required hc ht hk
  have hquery : ∀ c ∈ "Query".toList, c.isAlphanum = true := by simp
  have hby : ∀ c ∈ "By".toList, c.isAlphanum = true := by simp
  rw [isLogicalId_resolverId_iff]
  show (∀ c ∈ (Naming.toPascal (Naming.queryOperation table.name key.required)).toList, _) ↔ _
  rw [Naming.toPascal_queryOperation hname hcamel, ← Naming.isAlphanum_byAttributes_iff hcamel]
  simp only [String.toList_append, List.forall_mem_append]
  exact ⟨fun h => h.2, fun h => ⟨⟨⟨hquery, Naming.isAlphanum_toPascal hname⟩, hby⟩, h⟩⟩

/-! ## What stands in the stacks -/

theorem names_of_mapM_storedMember {stored : List (String × Json)} (h : tables.mapM storedMember = .ok stored) :
    stored.map Prod.fst = tables.map fun table => Naming.tableLogicalId table.name := by
  induction tables generalizing stored with
  | nil =>
    cases h
    rfl
  | cons table rest ih =>
    rw [List.mapM_cons] at h
    obtain ⟨member, hmember, h⟩ := bind_eq_ok.mp h
    obtain ⟨more, hmore, h⟩ := bind_eq_ok.mp h
    cases h
    obtain ⟨resource, -, rfl⟩ := map_eq_ok.mp hmember
    rw [List.map_cons, List.map_cons, ih hmore]

/-- The ids of the storage description. -/
theorem idsIn_storage {storage : Json} (hc : c.IsSound) (hr : r.IsFresh .infra)
    (h : Infra.storage c r = (.ok storage, r')) :
    idsIn "Resources" storage = (c.tables.map fun table => Naming.tableLogicalId table.name) ∧
      idsIn "Outputs" storage = c.tables.map fun table => Naming.tableLogicalId table.name ++ "Name" := by
  obtain ⟨stack, r₁, hstack, hmade⟩ := Emit.bind_eq_ok.mp h
  obtain ⟨stored, hstored, hresources, houtputs⟩ := addTables_eq_ok (nodup_names_tables hc)
    (fun _ _ => hr.types _) (fun _ _ => ⟨List.not_mem_nil, List.not_mem_nil⟩) hstack
  cases hmade
  constructor
  · show stack.resources.map Prod.fst = _
    rw [hresources]
    exact names_of_mapM_storedMember hstored
  · show stack.outputs.map Prod.fst = _
    rw [houtputs]
    exact List.map_map

theorem mem_names_insertAll_iff {members new : List (String × Json)} :
    id ∈ (insertAll members new).map Prod.fst ↔ id ∈ members.map Prod.fst ∨ id ∈ new.map Prod.fst := by
  induction new generalizing members with
  | nil => simp [insertAll]
  | cons m rest ih =>
    show id ∈ (insertAll (Members.insert m.1 m.2 members) rest).map Prod.fst ↔ _
    rw [ih, Members.mem_names_insert, List.map_cons, List.mem_cons, or_assoc, or_left_comm]

theorem names_tableMembers {ops : List Operation} (hops : ∀ op ∈ ops, op ∈ candidates table) :
    (tableMembers table ops).map Prod.fst = Naming.dataSource table.name :: ops.map resolverId := by
  unfold tableMembers
  rw [List.map_cons, List.map_map]
  conv_rhs => rw [← (mapM_resolver ops hops).2, List.map_map]
  rfl

/-- The ids of the description of the API: its own, those of data sources, and those of resolvers. -/
theorem mem_ids_resources_iff : id ∈ (resources o c).map Prod.fst ↔ id ∈ [apiId, schemaId] ∨
    ∃ table ∈ c.tables, id = Naming.dataSource table.name ∨ ∃ op ∈ kept c table, id = resolverId op := by
  have hbrought : id ∈ (broughtResources c).map Prod.fst ↔
      ∃ table ∈ c.tables, id = Naming.dataSource table.name ∨ ∃ op ∈ kept c table, id = resolverId op := by
    unfold broughtResources
    rw [List.map_flatMap, List.mem_flatMap]
    refine exists_congr fun table => and_congr_right fun _ => ?_
    rw [names_tableMembers fun op hop => (mem_kept_iff.mp hop).1, List.mem_cons, List.mem_map]
    simp only [eq_comm]
  unfold resources
  rw [mem_names_insertAll_iff, hbrought]
  rfl

/-- Of every operation that a table calls for there is one with the same id that is kept. -/
theorem exists_kept_resolverId (ht : table ∈ c.tables) (hop : op ∈ candidates table) :
    ∃ other ∈ c.tables, ∃ op' ∈ kept c other, resolverId op = resolverId op' := by
  have hsame : ∀ other, ∀ op' ∈ candidates other, op.name = op'.name → resolverId op = resolverId op' := by
    intro other op' hop' hname
    rcases operation_eq_of_name hop hop' hname with ⟨-, rfl⟩ | ⟨key, -, key', -, rfl, rfl⟩
    · rfl
    · unfold resolverId
      rw [hname]
      rfl
  -- the first table in name order that calls for the name keeps it
  let calling := c.tables.filter fun other => op.name ∈ (candidates other).map Operation.name
  have hcalling : ∀ other, other ∈ calling.toFinset ↔
      other ∈ c.tables ∧ op.name ∈ (candidates other).map Operation.name := by
    intro other
    rw [List.mem_toFinset, List.mem_filter, decide_eq_true_eq]
  obtain ⟨first, hfirst, hleast⟩ := Finset.exists_min_image calling.toFinset (fun other => other.name)
    ⟨table, (hcalling table).mpr ⟨ht, List.mem_map_of_mem hop⟩⟩
  obtain ⟨htables, hname⟩ := (hcalling first).mp hfirst
  obtain ⟨op', hop', hname⟩ := List.mem_map.mp hname
  refine ⟨first, htables, op', mem_kept_iff.mpr ⟨hop', fun other ho hlt hmem => ?_⟩,
    hsame first op' hop' hname.symm⟩
  have hle := hleast other ((hcalling other).mpr ⟨ho, hname ▸ hmem⟩)
  exact absurd hlt (not_lt.mpr hle)

/-! ## Both stacks -/

/-- The ids of the stacks of a catalog. All of them are logical ids, but for those of the resolvers of queries.
For every query of a table there is a resolver under its id, which is a logical id exactly if none of the
attributes that the query requires is parted. -/
structure HasLogicalIds (c : Catalog) (storage api : Json) : Prop where
  stored : ∀ id ∈ idsIn "Resources" storage, IsLogicalId id
  outputs : ∀ id ∈ idsIn "Outputs" storage ++ idsIn "Outputs" api, IsLogicalId id
  others : ∀ id ∈ idsIn "Resources" api, IsLogicalId id ∨
    ∃ table ∈ c.tables, ∃ key ∈ table.queryKeys, id = resolverId (queryOperation table key)
  queries : ∀ table ∈ c.tables, ∀ key ∈ table.queryKeys,
    resolverId (queryOperation table key) ∈ idsIn "Resources" api ∧
      (IsLogicalId (resolverId (queryOperation table key)) ↔ ∀ n ∈ key.required, Naming.isParted n = false)
  all : (∀ id ∈ idsIn "Resources" api, IsLogicalId id) ↔
    ∀ table ∈ c.tables, ∀ key ∈ table.queryKeys, ∀ n ∈ key.required, Naming.isParted n = false

theorem isLogicalId_or_query (hc : c.IsSound) (h : id ∈ (resources o c).map Prod.fst) : IsLogicalId id ∨
    ∃ table ∈ c.tables, ∃ key ∈ table.queryKeys, id = resolverId (queryOperation table key) := by
  rcases mem_ids_resources_iff.mp h with hfixed | ⟨table, ht, rfl | ⟨op, hop, rfl⟩⟩
  · left
    simp only [List.mem_cons, List.not_mem_nil, or_false] at hfixed
    rcases hfixed with rfl | rfl <;> exact ⟨by decide, by simp [apiId, schemaId]⟩
  · exact .inl (isLogicalId_of_isTypeName (isTypeName_of_mem_tables hc ht)).2.2
  · rcases mem_candidates_iff.mp (mem_kept_iff.mp hop).1 with ⟨verb, hv, rfl⟩ | ⟨key, hk, rfl⟩
    · exact .inl (isLogicalId_mutation (isTypeName_of_mem_tables hc ht) hv _)
    · exact .inr ⟨table, ht, key, hk, rfl⟩

theorem mem_ids_of_query (ht : table ∈ c.tables) (hk : key ∈ table.queryKeys) :
    resolverId (queryOperation table key) ∈ (resources o c).map Prod.fst := by
  obtain ⟨other, ho, op, hop, hid⟩ := exists_kept_resolverId ht (mem_candidates_iff.mpr (.inr ⟨key, hk, rfl⟩))
  exact mem_ids_resources_iff.mpr (.inr ⟨other, ho, .inr ⟨op, hop, hid⟩⟩)

/-- The ids of stacks with those resources and outputs. -/
theorem hasLogicalIds {storage api : Json} (hc : c.IsSound)
    (htables : idsIn "Resources" storage = c.tables.map fun table => Naming.tableLogicalId table.name)
    (hshared : idsIn "Outputs" storage = c.tables.map fun table => Naming.tableLogicalId table.name ++ "Name")
    (hresources : api.part "Resources" = resources o c) (houtputs : idsIn "Outputs" api = ["GraphQlApiUrl"]) :
    HasLogicalIds c storage api := by
  have hids : idsIn "Resources" api = (resources o c).map Prod.fst := congrArg (List.map Prod.fst) hresources
  have hname : ∀ table ∈ c.tables, isTypeName table.name.toList = true :=
    fun _ ht => isTypeName_of_mem_tables hc ht
  constructor
  case stored =>
    rw [htables]
    exact List.forall_mem_map.mpr fun table ht => (isLogicalId_of_isTypeName (hname table ht)).1
  case outputs =>
    rw [hshared, houtputs]
    refine List.forall_mem_append.mpr ⟨?_, ?_⟩
    · exact List.forall_mem_map.mpr fun table ht => (isLogicalId_of_isTypeName (hname table ht)).2.1
    · exact List.forall_mem_singleton.mpr ⟨by decide, by simp⟩
  case others =>
    rw [hids]
    exact fun id hid => isLogicalId_or_query hc hid
  case queries =>
    rw [hids]
    exact fun table ht key hk => ⟨mem_ids_of_query ht hk, isLogicalId_query_iff hc ht hk⟩
  case all =>
    rw [hids]
    constructor
    · exact fun hall table ht key hk => (isLogicalId_query_iff hc ht hk).mp (hall _ (mem_ids_of_query ht hk))
    · intro hall id hid
      rcases isLogicalId_or_query hc hid with hlegal | ⟨table, ht, key, hk, rfl⟩
      · exact hlegal
      · exact (isLogicalId_query_iff hc ht hk).mpr (hall table ht key hk)

theorem exists_hasLogicalIds (hc : c.IsSound) (hr : r.IsFresh .infra) (o : Options) :
    ∃ files r' storage api, Target.render o c .infra r = (.ok files, r') ∧
      files.get? storageFile = some (Json.document storage) ∧ files.get? apiFile = some (Json.document api) ∧
        api.part "Resources" = resources o c ∧ HasLogicalIds c storage api := by
  obtain ⟨files, r', hrender⟩ := Target.exists_render_of_check (o := o) (t := .infra) hc hr rfl
  obtain ⟨storage, r₁, hstorage, hrest⟩ := Emit.bind_eq_ok.mp (Target.generate_of_render hrender)
  obtain ⟨api, r₂, hapi, hfiles⟩ := Emit.bind_eq_ok.mp hrest
  cases hfiles
  -- tables are marked as types, so that no operation was seen when the API is described
  have hkeeps : Emit.Keeps SameOperations (Infra.storage c) :=
    keeps_storage fun name => sameOperations_markType name
  have hsame : SameOperations r r₁ := by
    have hkept := hkeeps r
    rwa [hstorage] at hkept
  have hresources : api.part "Resources" = resources o c := by
    unfold Json.part
    rw [(api_ends hc (hr.seen.congr hsame)).of_eq_ok hapi]
  have houtputs : idsIn "Outputs" api = ["GraphQlApiUrl"] := by
    obtain ⟨new, r₃, -, hmade⟩ := Emit.bind_eq_ok.mp hapi
    cases hmade
    rfl
  obtain ⟨htables, hshared⟩ := idsIn_storage hc hr hstorage
  have hnames : ([(storageFile, storage.document), (apiFile, api.document)].map Prod.fst).Nodup :=
    show [storageFile, apiFile].Nodup by decide
  refine ⟨_, r', storage, api, hrender, ?_, ?_, hresources,
    hasLogicalIds hc htables hshared hresources houtputs⟩
  · exact (NameMap.get?_ofList hnames _ _).mpr List.mem_cons_self
  · exact (NameMap.get?_ofList hnames _ _).mpr (List.mem_cons_of_mem _ List.mem_cons_self)

/-- The ids of the stacks that are rendered for an accepted corpus. -/
theorem hasLogicalIds_of_catalog {corpus : Corpus} (hp : corpus.IsParsed) (h : corpus.catalog = .ok c)
    (hr : r.IsFresh .infra) (o : Options) :
    ∃ files r' storage api, Target.render o c .infra r = (.ok files, r') ∧
      files.get? storageFile = some (Json.document storage) ∧ files.get? apiFile = some (Json.document api) ∧
        HasLogicalIds c storage api := by
  obtain ⟨files, r', storage, api, hrender, hstorage, hapi, -, hids⟩ :=
    exists_hasLogicalIds (Corpus.isSound_of_catalog hp h) hr o
  exact ⟨files, r', storage, api, hrender, hstorage, hapi, hids⟩

/-- The source of a table with an attribute whose words are parted. -/
def sampleSource : List String :=
  ["name: Sample", "kind: table", "version: 1", "model:",
    "  keys: {primary: {partition: id, sort: pH}}",
    "  attributes: [{name: id, type: string}, {name: pH, type: number}]"]

/-- The document that it is parsed to. -/
def samples : Corpus :=
  let attr (name : String) (scalar : Scalar) : AttributeDoc := ⟨name, .scalar scalar, false, none, none⟩
  ⟨[⟨⟨"Sample.yml"⟩, "Sample", none, .table ⟨"1", "id", some "pH", none,
    [attr "id" .string, attr "pH" .number]⟩⟩], []⟩

theorem samples_isParsed : samples.IsParsed :=
  Corpus.isParsed_of_mapM (s := [(⟨"Sample.yml"⟩, sampleSource)]) (by decide +kernel) (.inl rfl)

/-- The catalog of this document. -/
def sampleCatalog : Catalog := samples.catalog.toOption.getD .empty

theorem catalog_samples : samples.catalog = .ok sampleCatalog := by decide +kernel

theorem hasLogicalIds_of_catalog_samples : samples.IsParsed ∧ samples.catalog = .ok sampleCatalog ∧
    Registry.IsFresh .infra .empty ∧ ∀ o : Options, ∃ files r' storage api,
      Target.render o sampleCatalog .infra .empty = (.ok files, r') ∧
        files.get? storageFile = some (Json.document storage) ∧ files.get? apiFile = some (Json.document api) ∧
          HasLogicalIds sampleCatalog storage api :=
  ⟨samples_isParsed, catalog_samples, isFresh_empty _,
    hasLogicalIds_of_catalog samples_isParsed catalog_samples (isFresh_empty _)⟩

/-- A resolver of the table stands under an id with a `_`. -/
theorem exists_illegal_id : samples.IsParsed ∧ samples.catalog = .ok sampleCatalog ∧
    ∀ o : Options, ∃ files r' api, Target.render o sampleCatalog .infra .empty = (.ok files, r') ∧
      files.get? apiFile = some (Json.document api) ∧
        "QueryQuerySampleByP_HResolver" ∈ idsIn "Resources" api ∧
          ¬ IsLogicalId "QueryQuerySampleByP_HResolver" := by
  refine ⟨samples_isParsed, catalog_samples, fun o => ?_⟩
  have hc := Corpus.isSound_of_catalog samples_isParsed catalog_samples
  obtain ⟨files, r', storage, api, hrender, -, hapi, hresources, -⟩ :=
    exists_hasLogicalIds hc (isFresh_empty _) o
  have htable : ∃ table ∈ sampleCatalog.tables, ∃ key ∈ table.queryKeys,
      resolverId (queryOperation table key) = "QueryQuerySampleByP_HResolver" := by decide +kernel
  obtain ⟨table, ht, key, hk, hid⟩ := htable
  refine ⟨files, r', api, hrender, hapi, ?_, fun hlegal => absurd (hlegal.2 '_' (by decide)) (by decide)⟩
  unfold idsIn
  rw [hresources, ← hid]
  exact mem_ids_of_query ht hk

end Infra

end SchemaGen
