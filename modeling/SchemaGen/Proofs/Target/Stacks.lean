import SchemaGen.Proofs.Naming.Conversions
import SchemaGen.Proofs.Target.Failures
import SchemaGen.Proofs.Target.Resolvers
import SchemaGen.Proofs.Target.StoredKeys

/-!
# The stacks fit together

The storage description gives each table a physical name and shares it under an export; the description of
the API has a data source for each table, which imports the physical name. Names and exports are written in
kebab case, which does not keep apart names that differ in their case alone, and nothing in these two
descriptions looks at that. But such names have one module in the host models, which declare no module twice:
where the host models render, the physical names are distinct, and a data source imports what its own table
exports.

This holds of every catalog that entities and enums were put into by their names, whether or not it comes
from documents.

Results:
1. `ne_toKebab_of_hostModels`: what the host models make sure of.
2. `storage_eq_ok`, `api_eq_ok`: what the descriptions say.
3. `stacksFit_of_render`: the stacks fit together.
-/

namespace SchemaGen

open Emission Registry

variable {c : Catalog} {o : Options} {r r' : Registry} {files : Files} {table : Table} {tables : List Table}

/-! ## Catalogs that were put together -/

namespace Catalog

/-- Entities and enums were put into the catalog, each under its own name. -/
inductive Built : Catalog → Prop
  | empty : Built .empty
  | entity {c : Catalog} (e : Entity) : Built c → Built (c.addEntity e)
  | enum {c : Catalog} (e : EnumType) : Built c → Built (c.addEnum e)

namespace Built

theorem ordered (h : c.Built) : c.entities.Ordered := by
  induction h with
  | empty => exact NameMap.ordered_empty
  | entity e _ ih => exact NameMap.ordered_insert ih e.name e
  | enum e _ ih => exact ih

theorem name_of_entity? (h : c.Built) {n : String} {e : Entity} (he : c.entity? n = some e) :
    e.name = n := by
  induction h with
  | empty => cases he
  | entity new _ ih =>
    unfold entity? addEntity at he
    rw [NameMap.get?_insert] at he
    split at he
    · next hn =>
      cases he
      exact hn.symm
    · exact ih he
  | enum new _ ih => exact ih he

theorem nodup_names_entityList (h : c.Built) : (c.entityList.map Entity.name).Nodup := by
  unfold entityList
  rw [h.ordered.map_values fun _ _ => h.name_of_entity?]
  exact h.ordered.nodup_names

theorem nodup_names_tables (h : c.Built) : (c.tables.map fun table => table.name).Nodup := by
  have hnames := h.nodup_names_entityList
  unfold List.Nodup at hnames ⊢
  rw [List.pairwise_map] at hnames ⊢
  refine List.Pairwise.filterMap _ (fun e f hne table ht other ho => ?_) hnames
  cases e with
  | object o => cases ht
  | table table' =>
    cases f with
    | object o => cases ho
    | table other' =>
      cases ht
      cases ho
      exact hne

theorem foldl_addEnum (pairs : List (String × List String)) (h : c.Built) :
    (pairs.foldl (fun (c : Catalog) p => c.addEnum ⟨p.1, p.2⟩) c).Built := by
  induction pairs generalizing c with
  | nil => exact h
  | cons p rest ih => exact ih (h.enum _)

theorem foldl_addEntity {α : Type} (f : α → Entity) (members : List α) (h : c.Built) :
    (members.foldl (fun (c : Catalog) m => c.addEntity (f m)) c).Built := by
  induction members generalizing c with
  | nil => exact h
  | cons m rest ih => exact ih (h.entity _)

end Built

end Catalog

/-- The catalogs of documents were put together so. -/
theorem Corpus.built_of_catalog {corpus : Corpus} (h : corpus.catalog = .ok c) : c.Built := by
  unfold catalog at h
  obtain ⟨-, -, h⟩ := bind_eq_ok.mp h
  obtain ⟨enums, -, h⟩ := bind_eq_ok.mp h
  obtain ⟨-, -, h⟩ := bind_eq_ok.mp h
  obtain ⟨-, -, h⟩ := bind_eq_ok.mp h
  cases h
  exact (Catalog.Built.empty.foldl_addEnum enums.pairs).foldl_addEntity (toEntity enums) corpus.documents

/-! ## What the host models make sure of -/

namespace HostModel

/-- Names that have the same kebab case share a module. -/
theorem moduleOf_modelFile_congr {n m : String} (h : Naming.toKebab n = Naming.toKebab m) :
    moduleOf (Naming.modelFile n "rs") = moduleOf (Naming.modelFile m "rs") := by
  have hwords : (Naming.split n.toList).map Naming.lower = (Naming.split m.toList).map Naming.lower := by
    rw [← Naming.Convention.split_write .kebab n, ← Naming.Convention.split_write .kebab m]
    exact congrArg (fun s : String => (Naming.split s.toList).map Naming.lower) h
  have hmodule : ∀ n : String, moduleOf (Naming.modelFile n "rs") = String.ofList (Naming.joinWith '_'
      ((Naming.split n.toList).map Naming.lower ++ (Naming.split "model".toList).map Naming.lower)) := by
    intro n
    have hfile : Naming.modelFile n "rs" = n ++ ".model" ++ ".rs" := by
      unfold Naming.modelFile
      simp only [String.append_assoc]
      rfl
    have hsplit : Naming.split (n ++ ".model").toList = Naming.split n.toList ++ Naming.split "model".toList := by
      rw [String.toList_append]
      exact Naming.split_append_separator (by decide) _ _
    unfold moduleOf
    rw [hfile, fileStem_append _ rfl, Naming.hostModule_eq_toSnake, Naming.toSnake, Naming.snakeChars, hsplit,
      List.map_append]
  rw [hmodule, hmodule, hwords]

/-- Every entity has a file. -/
theorem names_of_collect_modelFile {entities : List Entity} {models : List (String × String)}
    (h : Emit.collect (modelFile o c) entities r = (.ok models, r')) :
    models.map Prod.fst = entities.map fun e => Naming.modelFile e.name "rs" := by
  induction entities generalizing r models with
  | nil =>
    cases h
    rfl
  | cons e rest ih =>
    obtain ⟨first, more, r₁, hfirst, hmore, rfl⟩ := Emit.collect_cons_eq_ok.mp h
    obtain ⟨decls, r₂, -, hmade⟩ := Emit.bind_eq_ok.mp hfirst
    cases hmade
    rw [List.map_append, ih hmore]
    rfl

/-- Entities of different names have different kebab cases where the host models render. -/
theorem ne_toKebab_of_hostModels (h : HostModel.generate o c r = (.ok files, r')) {e f : Entity}
    (he : e ∈ c.entityList) (hf : f ∈ c.entityList) (hne : e.name ≠ f.name) :
    Naming.toKebab e.name ≠ Naming.toKebab f.name := by
  intro hkebab
  obtain ⟨models, r₁, hmodels, h⟩ := Emit.bind_eq_ok.mp h
  obtain ⟨enums, r₂, -, h⟩ := Emit.bind_eq_ok.mp h
  obtain ⟨modules, r₃, hmodules, -⟩ := Emit.bind_eq_ok.mp h
  have hdeclared : verdict (moduleNames [] (NameMap.ofList (models ++ enums)).names) = .ok () :=
    verdict_eq_ok.mpr ⟨modules, congrArg Prod.fst hmodules⟩
  have hfile : ∀ e ∈ c.entityList,
      Naming.modelFile e.name "rs" ∈ (NameMap.ofList (models ++ enums)).names := by
    intro e he
    rw [NameMap.mem_names_ofList, List.map_append, names_of_collect_modelFile hmodels]
    exact List.mem_append_left _ (List.mem_map.mpr ⟨e, he, rfl⟩)
  -- two files that share a module are one
  have hsame := List.inj_on_of_nodup_map (verdict_moduleNames_iff.mp hdeclared).1 (hfile e he) (hfile f hf)
    (moduleOf_modelFile_congr hkebab)
  unfold Naming.modelFile at hsame
  exact hne ((String.append_left_inj _).mp ((String.append_left_inj _).mp hsame))

theorem nodup_toKebab_tables (hb : c.Built) (h : HostModel.generate o c r = (.ok files, r')) :
    (c.tables.map fun table => Naming.toKebab table.name).Nodup := by
  have hnames := hb.nodup_names_tables
  unfold List.Nodup at hnames ⊢
  rw [List.pairwise_map] at hnames ⊢
  refine List.Pairwise.imp_of_mem (fun {table other} ht ho hne => ?_) hnames
  show Naming.toKebab (Entity.table table).name ≠ Naming.toKebab (Entity.table other).name
  exact ne_toKebab_of_hostModels h (Catalog.mem_entityList_of_mem_tables ht)
    (Catalog.mem_entityList_of_mem_tables ho) hne

end HostModel

/-- What is put in under a new name comes last. -/
theorem Members.insert_of_not_mem {α : Type} {name : String} {members : Members α} (value : α)
    (h : name ∉ members.map Prod.fst) : insert name value members = members ++ [(name, value)] := by
  induction members with
  | nil => rfl
  | cons m rest ih =>
    obtain ⟨other, old⟩ := m
    rw [List.map_cons, List.mem_cons, not_or] at h
    unfold insert
    rw [if_neg (Ne.symm h.1), ih h.2]
    rfl

/-! ## Reading the descriptions -/

namespace Infra

/-- The ids of the resources of a type. -/
def idsOf (type : String) (document : Json) : List String :=
  ((document.part "Resources").filter fun m => m.2.textAt? ["Type"] == some type).map Prod.fst

/-- The physical names of tables, each with the id of the resource. -/
def physicalNames (storage : Json) : List (String × String) :=
  (storage.part "Resources").filterMap fun m =>
    (m.2.textAt? ["Properties", "TableName"]).map fun name => (m.1, name)

/-- The names under which physical names are shared, each with the id of the resource that it is from. -/
def exportNames (storage : Json) : List (String × String) :=
  (storage.part "Outputs").filterMap fun m =>
    (m.2.textAt? ["Value", "Ref"]).bind fun id => (m.2.textAt? ["Export", "Name"]).map fun name => (id, name)

/-- The path to the name of a table that is imported. -/
def importPath : List String := ["Properties", "DynamoDBConfig", "TableName", "Fn::ImportValue"]

/-- The names that are imported for tables, each with the id of the resource that imports it. -/
def importedNames (api : Json) : List (String × String) :=
  (api.part "Resources").filterMap fun m => (m.2.textAt? importPath).map fun name => (m.1, name)

/-- The descriptions have what the tables of the catalog call for, and what is imported is exported once. -/
structure FitTogether (c : Catalog) (storage api : Json) : Prop where
  tables : idsOf "AWS::DynamoDB::Table" storage = c.tables.map fun table => Naming.tableLogicalId table.name
  names : physicalNames storage =
    c.tables.map fun table => (Naming.tableLogicalId table.name, Naming.toKebab table.name)
  exports : exportNames storage =
    c.tables.map fun table => (Naming.tableLogicalId table.name, Naming.tableExport table.name)
  sources : (idsOf "AWS::AppSync::DataSource" api).Perm (c.tables.map fun table => Naming.dataSource table.name)
  imports : (importedNames api).Perm
    (c.tables.map fun table => (Naming.dataSource table.name, Naming.tableExport table.name))
  nodup_sources : (c.tables.map fun table => Naming.dataSource table.name).Nodup
  nodup_tables : (c.tables.map fun table => Naming.tableLogicalId table.name).Nodup
  nodup_names : ((physicalNames storage).map Prod.snd).Nodup
  nodup_exports : ((exportNames storage).map Prod.snd).Nodup
  exported : ∀ i ∈ importedNames api, ∃! e, e ∈ exportNames storage ∧ e.2 = i.2
  imported : ∀ e ∈ exportNames storage, ∃! i, i ∈ importedNames api ∧ i.2 = e.2

/-! ## The storage description -/

/-- The member that a table brings to the resources. -/
def storedMember (table : Table) : Except RenderFault (String × Json) :=
  (tableResource table).map fun resource => (Naming.tableLogicalId table.name, resource)

/-- The member that a table brings to the outputs. -/
def sharedMember (table : Table) : String × Json :=
  (Naming.tableLogicalId table.name ++ "Name", tableOutput table)

/-- Tables whose names are different and free bring their members one after another. -/
theorem addTables_eq_ok {stack stack' : Stack} (hn : (tables.map fun table => table.name).Nodup)
    (hfree : ∀ table ∈ tables, r.hasType .infra (Naming.tableLogicalId table.name) = false)
    (hnew : ∀ table ∈ tables, Naming.tableLogicalId table.name ∉ stack.resources.map Prod.fst ∧
      Naming.tableLogicalId table.name ++ "Name" ∉ stack.outputs.map Prod.fst)
    (h : addTables stack tables r = (.ok stack', r')) :
    ∃ stored, tables.mapM storedMember = .ok stored ∧ stack'.resources = stack.resources ++ stored ∧
      stack'.outputs = stack.outputs ++ tables.map sharedMember := by
  induction tables generalizing stack r with
  | nil =>
    cases h
    exact ⟨[], rfl, (List.append_nil _).symm, (List.append_nil _).symm⟩
  | cons table rest ih =>
    rw [List.map_cons, List.nodup_cons] at hn
    have hid := logicalId_not_mem hn.1
    obtain ⟨htable, hothers⟩ := List.forall_mem_cons.mp hfree
    obtain ⟨⟨hresource, houtput⟩, hnewOthers⟩ := List.forall_mem_cons.mp hnew
    obtain ⟨next, r₁, hfirst, hrest⟩ := Emit.bind_eq_ok.mp h
    obtain ⟨resource, hmade, rfl, rfl⟩ := addTable_eq_ok hfirst htable
    rw [Members.insert_of_not_mem _ hresource, Members.insert_of_not_mem _ houtput] at hrest
    have hrestNew : ∀ other ∈ rest, Naming.tableLogicalId other.name ∉
          (stack.resources ++ [(Naming.tableLogicalId table.name, resource)]).map Prod.fst ∧
        Naming.tableLogicalId other.name ++ "Name" ∉ (stack.outputs ++
          [(Naming.tableLogicalId table.name ++ "Name", tableOutput table)]).map Prod.fst := by
      intro other ho
      obtain ⟨hother, hother'⟩ := hnewOthers other ho
      have hne : Naming.tableLogicalId other.name ≠ Naming.tableLogicalId table.name := fun he =>
        hid (List.mem_map.mpr ⟨other, ho, he⟩)
      rw [List.map_append, List.mem_append, not_or, List.map_append, List.mem_append, not_or]
      refine ⟨⟨hother, fun he => hne (List.mem_singleton.mp he)⟩, hother', fun he => ?_⟩
      exact hne ((String.append_left_inj _).mp (List.mem_singleton.mp he))
    obtain ⟨stored, hstored, hresources, houtputs⟩ :=
      ih hn.2 (Emit.free_of_markType hid hothers) hrestNew hrest
    refine ⟨(Naming.tableLogicalId table.name, resource) :: stored, ?_, ?_, ?_⟩
    · rw [List.mapM_cons, hstored, storedMember, hmade]
      rfl
    · rw [hresources, List.append_assoc, List.singleton_append]
    · rw [houtputs, List.append_assoc, List.singleton_append]
      rfl

/-- A resource of the storage description is a table with its physical name. -/
theorem textAt?_of_tableResource {resource : Json} (h : tableResource table = .ok resource) :
    resource.textAt? ["Type"] = some "AWS::DynamoDB::Table" ∧
      resource.textAt? ["Properties", "TableName"] = some (Naming.toKebab table.name) := by
  obtain ⟨definitions, -, hmade⟩ := bind_eq_ok.mp h
  cases hmade
  exact ⟨rfl, rfl⟩

/-- What is read from the members that tables bring to the resources: their ids, and their physical names. -/
theorem read_of_storedMembers {stored : List (String × Json)} (h : tables.mapM storedMember = .ok stored) :
    (stored.filter fun m => m.2.textAt? ["Type"] == some "AWS::DynamoDB::Table").map Prod.fst =
        tables.map (fun table => Naming.tableLogicalId table.name) ∧
      (stored.filterMap fun m => (m.2.textAt? ["Properties", "TableName"]).map fun name => (m.1, name)) =
        tables.map fun table => (Naming.tableLogicalId table.name, Naming.toKebab table.name) := by
  induction tables generalizing stored with
  | nil =>
    cases h
    exact ⟨rfl, rfl⟩
  | cons table rest ih =>
    rw [List.mapM_cons] at h
    obtain ⟨member, hmember, h⟩ := bind_eq_ok.mp h
    obtain ⟨more, hmore, h⟩ := bind_eq_ok.mp h
    cases h
    obtain ⟨resource, hresource, rfl⟩ := map_eq_ok.mp hmember
    obtain ⟨htype, hname⟩ := textAt?_of_tableResource hresource
    obtain ⟨hids, hnames⟩ := ih hmore
    constructor
    · rw [List.filter_cons_of_pos (by simp [htype]), List.map_cons, hids, List.map_cons]
    · rw [List.filterMap_cons, hname, hnames, List.map_cons]
      rfl

/-- What the storage description says of the tables. -/
theorem storage_eq_ok {storage : Json} (hn : (c.tables.map fun table => table.name).Nodup)
    (hr : r.IsFresh .infra) (h : Infra.storage c r = (.ok storage, r')) :
    (idsOf "AWS::DynamoDB::Table" storage = c.tables.map fun table => Naming.tableLogicalId table.name) ∧
      (physicalNames storage =
        c.tables.map fun table => (Naming.tableLogicalId table.name, Naming.toKebab table.name)) ∧
      exportNames storage =
        c.tables.map fun table => (Naming.tableLogicalId table.name, Naming.tableExport table.name) := by
  obtain ⟨stack, r₁, hstack, hmade⟩ := Emit.bind_eq_ok.mp h
  obtain ⟨stored, hstored, hresources, houtputs⟩ := addTables_eq_ok hn (fun _ _ => hr.types _)
    (fun _ _ => ⟨List.not_mem_nil, List.not_mem_nil⟩) hstack
  cases hmade
  have hempty : stack.resources = stored := hresources
  have houts : stack.outputs = c.tables.map sharedMember := houtputs
  obtain ⟨htables, hnames⟩ := read_of_storedMembers hstored
  refine ⟨?_, ?_, ?_⟩
  · show (stack.resources.filter _).map Prod.fst = _
    rw [hempty, htables]
  · show stack.resources.filterMap _ = _
    rw [hempty, hnames]
  · show stack.outputs.filterMap _ = _
    rw [houts, List.filterMap_map]
    exact List.filterMap_eq_map ▸ List.filterMap_congr fun _ _ => rfl

/-! ## The description of the API -/

/-- The tables bring their data sources, and otherwise resolvers alone. -/
theorem collect_tableResources {new : List (String × Json)}
    (h : Emit.collect (tableResources c) tables r = (.ok new, r')) :
    (∀ table ∈ tables, (Naming.dataSource table.name, dataSource table) ∈ new) ∧
      ∀ m ∈ new, (∃ table ∈ tables, m = (Naming.dataSource table.name, dataSource table)) ∨
        ∃ resolver : Resolver, m = (resolverId resolver.operation, resolver.resource) := by
  induction tables generalizing r new with
  | nil =>
    cases h
    exact ⟨fun _ ht => absurd ht List.not_mem_nil, fun _ hm => absurd hm List.not_mem_nil⟩
  | cons table rest ih =>
    obtain ⟨first, more, r₁, hfirst, hmore, rfl⟩ := Emit.collect_cons_eq_ok.mp h
    obtain ⟨all, r₂, -, hmade⟩ := Emit.bind_eq_ok.mp hfirst
    cases hmade
    obtain ⟨hsources, hmembers⟩ := ih hmore
    constructor
    · refine List.forall_mem_cons.mpr ⟨List.mem_append_left _ List.mem_cons_self, fun other ho => ?_⟩
      exact List.mem_append_right _ (hsources other ho)
    · intro m hm
      rcases List.mem_append.mp hm with hm | hm
      · rcases List.mem_cons.mp hm with rfl | hm
        · exact .inl ⟨table, List.mem_cons_self, rfl⟩
        · obtain ⟨resolver, -, rfl⟩ := List.mem_map.mp hm
          exact .inr ⟨resolver, rfl⟩
      · exact (hmembers m hm).imp_left fun ⟨other, ho, he⟩ => ⟨other, List.mem_cons_of_mem _ ho, he⟩

/-- What the resources of the API are. -/
inductive Supplied (o : Options) (c : Catalog) : String × Json → Prop
  | fixed {m : String × Json} : m ∈ fixedResources o → Supplied o c m
  | source {table : Table} : table ∈ c.tables → Supplied o c (Naming.dataSource table.name, dataSource table)
  | resolver (resolver : Resolver) : Supplied o c (resolverId resolver.operation, resolver.resource)

/-- The API has a data source for each table, and otherwise resources that are not data sources. -/
theorem api_eq_ok {api : Json} (hn : (c.tables.map fun table => table.name).Nodup)
    (h : Infra.api o c r = (.ok api, r')) :
    ((api.part "Resources").map Prod.fst).Nodup ∧
      (∀ table ∈ c.tables, (Naming.dataSource table.name, dataSource table) ∈ api.part "Resources") ∧
      ∀ m ∈ api.part "Resources", Supplied o c m := by
  obtain ⟨new, r₁, hnew, hmade⟩ := Emit.bind_eq_ok.mp h
  cases hmade
  obtain ⟨hsources, hmembers⟩ := collect_tableResources hnew
  show ((insertAll (fixedResources o) new).map Prod.fst).Nodup ∧
    (∀ table ∈ c.tables, (Naming.dataSource table.name, dataSource table) ∈ insertAll (fixedResources o) new) ∧
      ∀ m ∈ insertAll (fixedResources o) new, _
  have hfixed := nodup_names_fixedResources o
  have hsupplied : ∀ m ∈ new.reverse ++ fixedResources o, Supplied o c m := by
    intro m hm
    rcases List.mem_append.mp hm with hm | hm
    · rcases hmembers m (List.mem_reverse.mp hm) with ⟨table, ht, rfl⟩ | ⟨resolver, rfl⟩
      · exact .source ht
      · exact .resolver resolver
    · exact .fixed hm
  refine ⟨nodup_names_insertAll hfixed new, fun table ht => ?_,
    fun m hm => hsupplied m (mem_of_mem_insertAll hfixed hm)⟩
  -- nothing else is put in under the id of a data source
  have hone : ∀ m, Supplied o c m → m.1 = Naming.dataSource table.name → m.2 = dataSource table := by
    intro m hm hid
    cases hm with
    | fixed hmem =>
      have hname := List.mem_map_of_mem (f := Prod.fst) hmem
      exact absurd (hid ▸ hname) (dataSource_not_mem_fixedResources table.name)
    | source ho => rw [List.inj_on_of_nodup_map hn ho ht ((String.append_left_inj _).mp hid)]
    | resolver resolver => exact absurd hid (resolverId_ne_dataSource resolver.operation table.name)
  refine Members.mem_of_lookup ((lookup_insertAll _ _ _).trans (Members.lookup_of_forall ?_ fun v hv => ?_))
  · exact List.mem_append_left _ (List.mem_reverse.mpr (hsources table ht))
  · exact hone _ (hsupplied _ hv) rfl

/-- A data source imports the name of its table. Other resources of the API are of other types and import no
name of a table. -/
theorem Supplied.read {m : String × Json} (h : Supplied o c m) :
    (∃ table ∈ c.tables, m = (Naming.dataSource table.name, dataSource table)) ∨
      m.2.textAt? ["Type"] ≠ some "AWS::AppSync::DataSource" ∧ m.2.textAt? importPath = none := by
  cases h with
  | source ht => exact .inl ⟨_, ht, rfl⟩
  | resolver resolver => exact .inr ⟨by simp [Resolver.resource, Json.textAt?, Json.member?, Json.text?], rfl⟩
  | fixed hmem =>
    right
    rcases List.mem_cons.mp hmem with rfl | hmem
    · exact ⟨by simp [apiResource, Json.textAt?, Json.member?, Json.text?], rfl⟩
    · rw [List.mem_singleton.mp hmem]
      exact ⟨by simp [schemaResource, Json.textAt?, Json.member?, Json.text?], rfl⟩

theorem textAt?_dataSource (table : Table) :
    (dataSource table).textAt? ["Type"] = some "AWS::AppSync::DataSource" ∧
      (dataSource table).textAt? importPath = some (Naming.tableExport table.name) := ⟨rfl, rfl⟩

theorem nodup_dataSources (hn : (c.tables.map fun table => table.name).Nodup) :
    (c.tables.map fun table => Naming.dataSource table.name).Nodup := by
  rw [← Function.comp_def Naming.dataSource fun table : Table => table.name, ← List.map_map]
  exact hn.map fun _ _ he => (String.append_left_inj _).mp he

theorem nodup_logicalIds (hn : (c.tables.map fun table => table.name).Nodup) :
    (c.tables.map fun table => Naming.tableLogicalId table.name).Nodup := by
  rw [← Function.comp_def Naming.tableLogicalId fun table : Table => table.name, ← List.map_map]
  exact hn.map fun _ _ he => (String.append_left_inj _).mp he

theorem nodup_exports (hkebab : (c.tables.map fun table => Naming.toKebab table.name).Nodup) :
    (c.tables.map fun table => Naming.tableExport table.name).Nodup := by
  unfold Naming.tableExport
  rw [← Function.comp_def (fun name => name ++ "-table-name") fun table : Table => Naming.toKebab table.name,
    ← List.map_map]
  exact hkebab.map fun _ _ he => (String.append_left_inj _).mp he

/-- The data sources of the API, and what they import. -/
theorem sources_perm {api : Json} (hn : (c.tables.map fun table => table.name).Nodup)
    (h : Infra.api o c r = (.ok api, r')) :
    (idsOf "AWS::AppSync::DataSource" api).Perm (c.tables.map fun table => Naming.dataSource table.name) ∧
      (importedNames api).Perm
        (c.tables.map fun table => (Naming.dataSource table.name, Naming.tableExport table.name)) := by
  obtain ⟨hids, hsources, hsupplied⟩ := api_eq_ok hn h
  have hdistinct := nodup_dataSources hn
  constructor
  · have hnodup : (idsOf "AWS::AppSync::DataSource" api).Nodup :=
      hids.sublist (List.filter_sublist.map Prod.fst)
    refine (List.perm_ext_iff_of_nodup hnodup hdistinct).mpr fun id => ?_
    unfold idsOf
    simp only [List.mem_map, List.mem_filter, beq_iff_eq]
    constructor
    · rintro ⟨m, ⟨hm, htype⟩, rfl⟩
      rcases (hsupplied m hm).read with ⟨table, ht, rfl⟩ | ⟨hother, -⟩
      · exact ⟨table, ht, rfl⟩
      · exact absurd htype hother
    · rintro ⟨table, ht, rfl⟩
      exact ⟨_, ⟨hsources table ht, (textAt?_dataSource table).1⟩, rfl⟩
  · have hnodup : (importedNames api).Nodup := by
      unfold importedNames List.Nodup at *
      rw [List.pairwise_map] at hids
      refine List.Pairwise.filterMap _ (fun m m' hne i hi i' hi' he => hne ?_) hids
      obtain ⟨_, -, rfl⟩ := Option.map_eq_some_iff.mp hi
      obtain ⟨_, -, rfl⟩ := Option.map_eq_some_iff.mp hi'
      exact (Prod.mk.inj he).1
    have hpairs : (c.tables.map fun table =>
        (Naming.dataSource table.name, Naming.tableExport table.name)).Nodup := by
      refine List.Nodup.of_map Prod.fst ?_
      rw [List.map_map]
      exact hdistinct
    refine (List.perm_ext_iff_of_nodup hnodup hpairs).mpr fun i => ?_
    unfold importedNames
    simp only [List.mem_map, List.mem_filterMap, Option.map_eq_some_iff]
    constructor
    · rintro ⟨m, hm, name, hname, rfl⟩
      rcases (hsupplied m hm).read with ⟨table, ht, rfl⟩ | ⟨-, hnone⟩
      · rw [(textAt?_dataSource table).2] at hname
        cases hname
        exact ⟨table, ht, rfl⟩
      · rw [hnone] at hname
        cases hname
    · rintro ⟨table, ht, rfl⟩
      exact ⟨_, hsources table ht, _, (textAt?_dataSource table).2, rfl⟩

/-! ## Both descriptions -/

/-- The files of the infrastructure are two descriptions that fit together. -/
def StacksFit (c : Catalog) (files : Files) : Prop :=
  ∃ storage api : Json, files.get? storageFile = some storage.document ∧
    files.get? apiFile = some api.document ∧ FitTogether c storage api

/-- Tables that differ in kebab case fit together. -/
theorem stacksFit_of_generate (hn : (c.tables.map fun table => table.name).Nodup)
    (hkebab : (c.tables.map fun table => Naming.toKebab table.name).Nodup) (hr : r.IsFresh .infra)
    (h : Infra.generate o c r = (.ok files, r')) : StacksFit c files := by
  obtain ⟨storage, r₁, hstorage, h⟩ := Emit.bind_eq_ok.mp h
  obtain ⟨api, r₂, hapi, hfiles⟩ := Emit.bind_eq_ok.mp h
  cases hfiles
  obtain ⟨htables, hnames, hexports⟩ := storage_eq_ok hn hr hstorage
  obtain ⟨hsources, himports⟩ := sources_perm hn hapi
  have hexport := nodup_exports hkebab
  have hfiles : ([(storageFile, storage.document), (apiFile, api.document)].map Prod.fst).Nodup :=
    show [storageFile, apiFile].Nodup by decide
  have hexported : ∀ i ∈ importedNames api, ∃! e, e ∈ exportNames storage ∧ e.2 = i.2 := by
    intro i hi
    obtain ⟨table, ht, rfl⟩ := List.mem_map.mp (himports.mem_iff.mp hi)
    rw [hexports]
    refine ⟨_, ⟨List.mem_map.mpr ⟨table, ht, rfl⟩, rfl⟩, ?_⟩
    rintro e ⟨he, hsame⟩
    obtain ⟨other, ho, rfl⟩ := List.mem_map.mp he
    rw [List.inj_on_of_nodup_map hexport ho ht hsame]
  have himported : ∀ e ∈ exportNames storage, ∃! i, i ∈ importedNames api ∧ i.2 = e.2 := by
    intro e he
    rw [hexports] at he
    obtain ⟨table, ht, rfl⟩ := List.mem_map.mp he
    refine ⟨_, ⟨himports.mem_iff.mpr (List.mem_map.mpr ⟨table, ht, rfl⟩), rfl⟩, ?_⟩
    rintro i ⟨hi, hsame⟩
    obtain ⟨other, ho, rfl⟩ := List.mem_map.mp (himports.mem_iff.mp hi)
    rw [List.inj_on_of_nodup_map hexport ho ht hsame]
  refine ⟨storage, api, ?_, ?_, ?_⟩
  · exact (NameMap.get?_ofList hfiles _ _).mpr List.mem_cons_self
  · exact (NameMap.get?_ofList hfiles _ _).mpr (List.mem_cons_of_mem _ List.mem_cons_self)
  · exact {
      tables := htables
      names := hnames
      exports := hexports
      sources := hsources
      imports := himports
      nodup_tables := nodup_logicalIds hn
      nodup_sources := nodup_dataSources hn
      nodup_names := by
        rw [hnames, List.map_map]
        exact hkebab
      nodup_exports := by
        rw [hexports, List.map_map]
        exact hexport
      exported := hexported
      imported := himported }

theorem stacksFit_of_hostModels {o' : Options} {r₀ r₁ : Registry} {models : Files} (hb : c.Built)
    (hhost : Target.render o c .rust r₀ = (.ok models, r₁)) (hr : r.IsFresh .infra)
    (h : Target.render o' c .infra r = (.ok files, r')) : StacksFit c files :=
  stacksFit_of_generate hb.nodup_names_tables
    (HostModel.nodup_toKebab_tables hb (Target.generate_of_render hhost)) hr (Target.generate_of_render h)

/-- The stacks of a catalog fit together wherever its host models render: with whatever options and from
whatever registry the host models do so, and so in every run that renders all targets. -/
theorem stacksFit_of_render (hb : c.Built) :
    (∀ (o o' : Options) (r₀ r₁ r r' : Registry) (models files : Files),
      Target.render o c .rust r₀ = (.ok models, r₁) → r.IsFresh .infra →
        Target.render o' c .infra r = (.ok files, r') → StacksFit c files) ∧
      ∀ (s : Settings) (o : Options) (staged : List StagedTarget),
        Run.renderAll s o c Target.all .empty = .ok staged →
          ∃ files, ⟨s.outputDir .infra, files⟩ ∈ staged ∧ StacksFit c files := by
  refine ⟨fun o o' r₀ r₁ r r' models files hhost hr h => stacksFit_of_hostModels hb hhost hr h,
    fun s o staged hrun => ?_⟩
  obtain ⟨files, rfl, hfiles⟩ := Run.renderAll_isFresh hrun
  obtain ⟨r₀, r₁, -, hhost⟩ := hfiles .rust
  obtain ⟨r, r', hr, h⟩ := hfiles .infra
  exact ⟨files .infra, List.mem_map.mpr ⟨.infra, Target.mem_all _, rfl⟩, stacksFit_of_hostModels hb hhost hr h⟩

/-- Two tables, whose stacks are rendered by themselves and in a run. -/
theorem stacksFit_of_render_folded : foldedCatalog.Built ∧
    (∀ o, ∃ models r₁ files r', Target.render o foldedCatalog .rust .empty = (.ok models, r₁) ∧
      Target.render o foldedCatalog .infra .empty = (.ok files, r') ∧ StacksFit foldedCatalog files) ∧
    ∀ s o, ∃ staged, Run.renderAll s o foldedCatalog Target.all .empty = .ok staged ∧
      ∃ files, ⟨s.outputDir .infra, files⟩ ∈ staged ∧ StacksFit foldedCatalog files := by
  have hb := Corpus.built_of_catalog catalog_folded
  have hc := Corpus.isSound_of_catalog folded_isParsed catalog_folded
  have hhost : ∀ docs, HostModel.check docs foldedCatalog = .ok () := by decide +kernel
  refine ⟨hb, fun o => ?_, fun s o => ?_⟩
  · obtain ⟨models, r₁, hmodels⟩ := Target.exists_render_of_check (t := .rust) hc (isFresh_empty _) (hhost o.docs)
    obtain ⟨files, r', hfiles⟩ := Target.exists_render_of_check (o := o) (t := .infra) hc (isFresh_empty _) rfl
    exact ⟨models, r₁, files, r', hmodels, hfiles,
      (stacksFit_of_render hb).1 o o .empty r₁ .empty r' models files hmodels (isFresh_empty _) hfiles⟩
  · obtain ⟨staged, hrun⟩ := exists_renderAll_folded s o
    exact ⟨staged, hrun, (stacksFit_of_render hb).2 s o staged hrun⟩

end Infra

end SchemaGen
