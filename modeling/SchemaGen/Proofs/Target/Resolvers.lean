import SchemaGen.Proofs.Target.Rendering

/-!
# Who answers an operation

Three targets speak of the operations that the tables keep. The client models export each from the module
of its table, the API schema prints a field of a root type for it, and the API description has a resolver
for it, attached to the data source of its table. The first two always agree. The description, however,
holds resolvers by an id that is made from the Pascal case of the operation's name; of operations that
share it the last one alone has a resolver, and the fields of the others are not answered.

Results:
1. `rootFields_perm`, `readRootFields?_eq`: the fields of the root types, and those that are read from the text of
   a schema.
2. `forall_answered_iff`: when every field is answered.
3. `answers_of_renderAll`: what the targets of a run make of the operations.
-/

namespace SchemaGen

open Emission

/-! ## Fields of the root types -/

variable {c : Catalog} {o : Options} {ops : List Operation} {table : Table}

/-- The field of an operation, with its root type. -/
def Operation.rootField (op : Operation) : String × String := (op.kind.root, op.name)

/-- The names of what the tables keep differ. -/
theorem nodup_names_kept (hc : c.IsSound) : ((c.tables.flatMap (kept c)).map Operation.name).Nodup := by
  rw [List.map_flatMap, List.nodup_flatMap]
  refine ⟨fun table _ => nodup_names_firstNamed _ _, ?_⟩
  refine List.Pairwise.imp_of_mem (fun {table other} ht _ hlt n hn hn' => ?_) (ordered_tables hc)
  -- a name of the table that stands before is taken
  obtain ⟨op, hop, rfl⟩ := List.mem_map.mp hn
  obtain ⟨op', hop', he⟩ := List.mem_map.mp hn'
  refine (mem_kept_iff.mp hop').2 table ht hlt ?_
  exact he ▸ List.mem_map_of_mem (mem_kept_iff.mp hop).1

namespace ApiSchema

/-- The fields of the root types that definitions print. -/
def rootFields (defs : List Definition) : List (String × String) :=
  defs.flatMap fun
    | .root kind ops => ops.map fun op => (kind.root, op.name)
    | _ => []

/-- A kind of which there are no operations has no fields either. -/
theorem flatMap_filter_kinds (all : List OperationKind) :
    (all.filter fun kind => !(ofKind kind ops).isEmpty).flatMap (fun kind =>
        (ofKind kind ops).map Operation.rootField) =
      all.flatMap fun kind => (ofKind kind ops).map Operation.rootField := by
  induction all with
  | nil => rfl
  | cons kind rest ih =>
    rw [List.filter_cons, List.flatMap_cons, ← ih]
    cases hkind : ofKind kind ops with
    | nil => rfl
    | cons op more =>
      rw [← hkind]
      simp [hkind]

theorem rootFields_roots (ops : List Operation) :
    (rootFields (roots ops)).Perm (ops.map Operation.rootField) := by
  have hfields : rootFields (roots ops) =
      (kinds ops).flatMap fun kind => (ofKind kind ops).map Operation.rootField := by
    have hschema : rootFields (if (kinds ops).isEmpty then [] else [.schema (kinds ops)]) = [] := by
      split <;> rfl
    unfold rootFields at hschema ⊢
    unfold roots
    rw [List.flatMap_append, hschema, List.append_nil, List.flatMap_map]
    refine List.flatMap_congr fun kind _ => List.map_congr_left fun op hop => ?_
    rw [← beq_iff_eq.mp (List.mem_filter.mp hop).2]
    rfl
  have hmutations : ofKind .mutation ops = ops.filter fun op => !(op.kind == .query) := by
    refine List.filter_congr fun op _ => ?_
    cases op.kind <;> rfl
  rw [hfields]
  unfold kinds
  rw [flatMap_filter_kinds]
  show ((ofKind .query ops).map _ ++ ((ofKind .mutation ops).map _ ++ [])).Perm _
  rw [List.append_nil, ← List.map_append, hmutations]
  exact (List.filter_append_perm _ ops).map _

/-- The fields that a schema prints are those of what the tables keep. -/
theorem Composed.rootFields_perm {ds : List Declaration} {enums defs : List Definition}
    (h : Composed o c ds enums defs) :
    (rootFields defs).Perm ((c.tables.flatMap (kept c)).map Operation.rootField) := by
  have hother : rootFields (enums ++ (Declaration.types ds).map (composite o c)) = [] := by
    refine List.flatMap_eq_nil_iff.mpr fun d hd => ?_
    have hroot := h.isRoot_eq_false hd
    cases d with
    | root kind ops => cases hroot
    | _ => rfl
  have heq : rootFields defs = rootFields (roots (Declaration.operations ds)) := by
    rw [h.eq]
    unfold rootFields at hother ⊢
    rw [List.flatMap_append, hother, List.nil_append]
  rw [heq, h.operations]
  exact rootFields_roots _

/-! ### The text of a schema -/

/-- The names of the root types: the block of the schema lists them. -/
def rootNames (outlines : List Outline) : List String :=
  outlines.flatMap fun d => if d.keyword = "schema" then d.members.filterMap Member.type else []

/-- The fields of the root types that definitions hold: those of the object types that have such names. -/
def fieldsOfRoots (outlines : List Outline) : List (String × String) :=
  outlines.flatMap fun d => d.name.elim [] fun n =>
    if d.keyword = "type" ∧ n ∈ rootNames outlines then d.members.map fun m => (n, m.name) else []

/-- The fields of the root types that are read from the text of a schema. -/
def readRootFields? (text : String) : Option (List (String × String)) :=
  (readSchema? text).map fieldsOfRoots

variable {ds : List Declaration} {enums defs : List Definition}

/-- The block of the schema lists the kinds of which there are operations. -/
theorem Composed.mem_rootNames_iff (h : Composed o c ds enums defs) {n : String} :
    n ∈ rootNames (defs.map Definition.outline) ↔
      ∃ kind ∈ kinds (c.tables.flatMap (kept c)), kind.root = n := by
  unfold rootNames
  rw [List.flatMap_map, List.mem_flatMap]
  constructor
  · rintro ⟨d, hd, hn⟩
    split at hn
    · next hkeyword =>
      rcases h.mem_cases hd with ⟨e, -, rfl⟩ | ⟨decl, -, rfl⟩ | ⟨kind, -, rfl⟩ | rfl
      · exact absurd hkeyword (by simp [Definition.outline])
      · have hword : roleKeyword decl.role ≠ "schema" := by cases decl.role <;> decide
        exact absurd hkeyword hword
      · exact absurd hkeyword (by simp [Definition.outline])
      · obtain ⟨m, hm, hn⟩ := List.mem_filterMap.mp hn
        obtain ⟨kind, hkind, rfl⟩ := List.mem_map.mp hm
        exact ⟨kind, hkind, Option.some.inj hn⟩
    · cases hn
  · rintro ⟨kind, hkind, rfl⟩
    refine ⟨.schema (kinds (c.tables.flatMap (kept c))), ?_, ?_⟩
    · have hsome : (kinds (c.tables.flatMap (kept c))).isEmpty = false :=
        List.isEmpty_eq_false_iff_exists_mem.mpr ⟨kind, hkind⟩
      rw [h.eq, h.operations, roots, hsome]
      exact List.mem_append_right _ (List.mem_append_right _ (List.mem_singleton.mpr rfl))
    · exact List.mem_filterMap.mpr ⟨⟨kind.keyword, none, some kind.root⟩, List.mem_map_of_mem hkind, rfl⟩

/-- The fields of the root types are read back from the text of the schema. -/
theorem Composed.readRootFields?_eq (hc : c.IsSound) (hn : c.IsNamed) (h : Composed o c ds enums defs)
    (hclose : o.docs = true → AllClose defs) :
    readRootFields? (schemaText o.generatedAt defs) = some (rootFields defs) := by
  unfold readRootFields?
  rw [h.readSchema?_eq hc hn hclose, Option.map_some]
  unfold fieldsOfRoots rootFields
  rw [List.flatMap_map]
  refine congrArg some (List.flatMap_congr fun d hd => ?_)
  rcases h.mem_cases hd with ⟨e, -, rfl⟩ | ⟨decl, hdecl, rfl⟩ | ⟨kind, hkind, rfl⟩ | rfl
  · rfl
  · -- no type that an entity brings bears the name of a root type
    refine if_neg fun hroot => ?_
    obtain ⟨kind, -, hname⟩ := h.mem_rootNames_iff.mp hroot.2
    have hreserved : kind.root ∈ Corpus.reservedNames := by cases kind <;> decide
    exact h.not_mem_typeNames hc hreserved (hname ▸ List.mem_map_of_mem hdecl)
  · exact (if_pos ⟨rfl, h.mem_rootNames_iff.mpr ⟨kind, hkind, rfl⟩⟩).trans List.map_map
  · rfl

end ApiSchema

/-! ## Answered fields -/

namespace Infra

theorem exists_lastWith {op : Operation} (h : op ∈ ops) :
    ∃ last, lastWith ops (resolverId op) = some last := by
  unfold lastWith
  refine Option.isSome_iff_exists.mp (List.find?_isSome.mpr ⟨op, List.mem_reverse.mpr h, ?_⟩)
  exact beq_self_eq_true _

theorem lastWith_append (before after : List Operation) (id : String) :
    lastWith (before ++ after) id = (lastWith after id).or (lastWith before id) := by
  unfold lastWith
  rw [List.reverse_append, List.find?_append]

/-- Operations of different names are each the last one with their id exactly when their ids differ. -/
theorem forall_lastWith_iff (hnames : (ops.map Operation.name).Nodup) :
    (∀ op ∈ ops, lastWith ops (resolverId op) = some op) ↔ (ops.map resolverId).Nodup := by
  constructor
  · intro hall
    refine List.Nodup.map_on (fun op hop op' hop' he => ?_) (List.Nodup.of_map _ hnames)
    have hlast := hall op hop
    rw [he, hall op' hop'] at hlast
    exact (Option.some.inj hlast).symm
  · intro hids op hop
    obtain ⟨last, hlast⟩ := exists_lastWith hop
    obtain ⟨hmem, hid⟩ := of_lastWith_eq_some hlast
    rw [hlast, List.inj_on_of_nodup_map hids hmem hop hid]

/-- The fields that have a resolver. -/
theorem mem_rootFields_bindings_iff {field : String × String} :
    field ∈ (bindings (resources o c)).map Binding.rootField ↔
      ∃ op ∈ c.tables.flatMap (kept c),
        lastWith (c.tables.flatMap (kept c)) (resolverId op) = some op ∧ op.rootField = field := by
  rw [List.mem_map]
  constructor
  · rintro ⟨b, hb, rfl⟩
    obtain ⟨op, hop, hlast, rfl⟩ := mem_bindings_iff.mp hb
    exact ⟨op, hop, hlast, rfl⟩
  · rintro ⟨op, hop, hlast, rfl⟩
    exact ⟨bindingOf op, mem_bindings_iff.mpr ⟨op, hop, hlast, rfl⟩, rfl⟩

/-- The field of an operation is answered exactly when the operation is the last one with its id. -/
theorem rootField_mem_bindings_iff (hc : c.IsSound) {op : Operation} (h : op ∈ c.tables.flatMap (kept c)) :
    op.rootField ∈ (bindings (resources o c)).map Binding.rootField ↔
      lastWith (c.tables.flatMap (kept c)) (resolverId op) = some op := by
  rw [mem_rootFields_bindings_iff]
  constructor
  · rintro ⟨op', hop', hlast, hfield⟩
    rw [← List.inj_on_of_nodup_map (nodup_names_kept hc) hop' h (congrArg Prod.snd hfield)]
    exact hlast
  · intro hlast
    exact ⟨op, h, hlast, rfl⟩

/-- Every field is answered exactly when the ids of the resolvers differ. -/
theorem forall_answered_iff (hc : c.IsSound) :
    (∀ field, field ∈ (bindings (resources o c)).map Binding.rootField ↔
      field ∈ (c.tables.flatMap (kept c)).map Operation.rootField) ↔
        ((c.tables.flatMap (kept c)).map resolverId).Nodup := by
  rw [← forall_lastWith_iff (nodup_names_kept hc)]
  constructor
  · intro hsame op hop
    exact (rootField_mem_bindings_iff hc hop).mp ((hsame _).mpr (List.mem_map_of_mem hop))
  · intro hall field
    rw [mem_rootFields_bindings_iff, List.mem_map]
    constructor
    · rintro ⟨op, hop, -, rfl⟩
      exact ⟨op, hop, rfl⟩
    · rintro ⟨op, hop, rfl⟩
      exact ⟨op, hop, hall op hop, rfl⟩

end Infra

/-! ## The targets together -/

/-- The fields that definitions print and the resolvers among resources, for the operations that the tables
keep. Each operation has its field, and the last one with its resolver id has a resolver, attached to the
data source of its table. No field has two resolvers; each has one just where the ids differ. -/
structure Answers (c : Catalog) (defs : List ApiSchema.Definition) (resources : List (String × Json)) :
    Prop where
  fields : (ApiSchema.rootFields defs).Perm ((c.tables.flatMap (kept c)).map Operation.rootField)
  once : (ApiSchema.rootFields defs).Nodup
  answered : ∀ b, b ∈ Infra.bindings resources ↔ ∃ table ∈ c.tables, ∃ op ∈ kept c table,
    Infra.lastWith (c.tables.flatMap (kept c)) (Infra.resolverId op) = some op ∧
      b = ⟨op.kind.root, op.name, Naming.dataSource table.name⟩
  single : ((Infra.bindings resources).map Infra.Binding.rootField).Nodup
  sources : ∀ table ∈ c.tables,
    resources.lookup (Naming.dataSource table.name) = some (Infra.dataSource table)
  all : (∀ field, field ∈ (Infra.bindings resources).map Infra.Binding.rootField ↔
    field ∈ ApiSchema.rootFields defs) ↔ ((c.tables.flatMap (kept c)).map Infra.resolverId).Nodup

theorem answers (hc : c.IsSound) {ds : List Declaration} {enums defs : List ApiSchema.Definition}
    (h : ApiSchema.Composed o c ds enums defs) : Answers c defs (Infra.resources o c) := by
  have hperm := h.rootFields_perm
  constructor
  case fields => exact hperm
  case once =>
    rw [hperm.nodup_iff]
    refine List.Nodup.of_map Prod.snd ?_
    rw [List.map_map]
    exact nodup_names_kept hc
  case answered =>
    intro b
    rw [Infra.mem_bindings_iff]
    constructor
    · rintro ⟨op, hop, hlast, rfl⟩
      obtain ⟨table, ht, hkept⟩ := List.mem_flatMap.mp hop
      refine ⟨table, ht, op, hkept, hlast, ?_⟩
      rw [← entity_of_mem_candidates (mem_kept_iff.mp hkept).1]
      rfl
    · rintro ⟨table, ht, op, hkept, hlast, rfl⟩
      refine ⟨op, List.mem_flatMap.mpr ⟨table, ht, hkept⟩, hlast, ?_⟩
      rw [← entity_of_mem_candidates (mem_kept_iff.mp hkept).1]
      rfl
  case single => exact Infra.nodup_rootField_bindings (nodup_names_kept hc)
  case sources => exact fun table => Infra.lookup_dataSource hc
  case all =>
    simp only [hperm.mem_iff]
    exact Infra.forall_answered_iff hc

/-- The files in which the targets of a run speak of the operations: a module of the client models for each
table, with the operations that it keeps, the API schema, and the API description. The fields of the root types
are read from the text of the schema, unless it has descriptions that cannot be closed. -/
structure Speaks (o : Options) (c : Catalog) (files : Target → Files) (defs : List ApiSchema.Definition)
    (resources : List (String × Json)) : Prop where
  names : (files .typescript).names = Target.expectedFiles c .typescript
  modules : ∀ table ∈ c.tables, (files .typescript).get? (Naming.operationsFile table.name "ts") =
    some (ClientModel.operationsText table.name (Selection.ofName c table.name) (kept c table))
  schema : files .graphql =
    NameMap.ofList [(ApiSchema.schemaFile, ApiSchema.schemaText o.generatedAt defs)]
  fields : (o.docs = true → ApiSchema.AllClose defs) →
    ApiSchema.readRootFields? (ApiSchema.schemaText o.generatedAt defs) = some (ApiSchema.rootFields defs)
  description : ∃ api : Json, (files .infra).get? Infra.apiFile = some api.document ∧
    api.member? "Resources" = some (.object resources)

variable {s : Settings} {staged : List StagedTarget}

/-- The files of the targets that a run renders. -/
theorem speaks_of_renderAll (hc : c.IsSound) (hn : c.IsNamed)
    (h : Run.renderAll s o c Target.all .empty = .ok staged) :
    ∃ files : Target → Files, staged = Target.all.map (fun t => ⟨s.outputDir t, files t⟩) ∧
      ∃ ds enums defs, ApiSchema.Composed o c ds enums defs ∧
        Speaks o c files defs (Infra.resources o c) := by
  obtain ⟨files, hstaged, hfiles⟩ := Run.renderAll_isFresh h
  -- whatever was rendered before, each of the three targets starts without marks of its own
  obtain ⟨r₁, r₁', hclient, hrunClient⟩ := hfiles .typescript
  obtain ⟨r₂, r₂', hschema, hrunSchema⟩ := hfiles .graphql
  obtain ⟨r₃, r₃', hinfra, hrunInfra⟩ := hfiles .infra
  obtain ⟨hnames, hmodules⟩ :=
    (ClientModel.generate_ends hc hclient).of_eq_ok (Target.generate_of_render hrunClient)
  obtain ⟨defs, _, hdefs, hprinted⟩ := Emit.bind_eq_ok.mp (Target.generate_of_render hrunSchema)
  obtain ⟨ds, enums, hcomposed⟩ := ApiSchema.composed_of_definitions hc hschema hdefs
  obtain ⟨storage, api, hdocuments, hresources⟩ :=
    (Infra.generate_ends hc hinfra).of_eq_ok (Target.generate_of_render hrunInfra)
  refine ⟨files, hstaged, ds, enums, defs, hcomposed, hnames, hmodules, ?_,
    hcomposed.readRootFields?_eq hc hn, api, ?_, hresources⟩
  · exact (Except.ok.inj (congrArg Prod.fst hprinted)).symm
  · have hdifferent : [Infra.storageFile, Infra.apiFile].Nodup := by decide
    rw [hdocuments]
    refine (NameMap.get?_ofList ?_ _ _).mpr (List.mem_cons_of_mem _ List.mem_cons_self)
    exact hdifferent

/-- What the targets make of the operations when all of them render for a catalog of parsed documents. -/
theorem answers_of_renderAll {corpus : Corpus} (hp : corpus.IsParsed) (h : corpus.catalog = .ok c)
    (hrun : Run.renderAll s o c Target.all .empty = .ok staged) :
    ∃ files : Target → Files, staged = Target.all.map (fun t => ⟨s.outputDir t, files t⟩) ∧
      ∃ defs resources, Speaks o c files defs resources ∧ Answers c defs resources := by
  have hc := Corpus.isSound_of_catalog hp h
  obtain ⟨files, hstaged, ds, enums, defs, hcomposed, hspeaks⟩ :=
    speaks_of_renderAll hc (Corpus.isNamed_of_catalog hp h) hrun
  exact ⟨files, hstaged, defs, _, hspeaks, answers hc hcomposed⟩

/-- The sources of two tables whose names and keys are folded to one id of a resolver. -/
def foldedSources : List (Path × List String) :=
  [(⟨"ORDER.yml"⟩, ["name: ORDER", "kind: table", "version: 1", "model:",
      "  keys: {primary: {partition: lineByDay}}", "  attributes: [{name: lineByDay, type: string}]"]),
    (⟨"OrderByLine.yml"⟩, ["name: OrderByLine", "kind: table", "version: 1", "model:",
      "  keys: {primary: {partition: day}}", "  attributes: [{name: day, type: string}]"])]

/-- The documents that these sources are parsed to. -/
def folded : Corpus :=
  let table (name key : String) : SchemaDoc :=
    ⟨⟨name ++ ".yml"⟩, name, none,
      .table ⟨"1", key, none, none, [⟨key, .scalar .string, false, none, none⟩]⟩⟩
  ⟨[table "ORDER" "lineByDay", table "OrderByLine" "day"], []⟩

theorem folded_isParsed : folded.IsParsed :=
  Corpus.isParsed_of_mapM (s := foldedSources) (by decide +kernel) (.inl rfl)

/-- The catalog of these documents. -/
def foldedCatalog : Catalog := folded.catalog.toOption.getD .empty

theorem catalog_folded : folded.catalog = .ok foldedCatalog := by decide +kernel

theorem exists_renderAll_folded (s : Settings) (o : Options) :
    ∃ staged, Run.renderAll s o foldedCatalog Target.all .empty = .ok staged := by
  have hhost : ∀ docs, HostModel.check docs foldedCatalog = .ok () := by decide +kernel
  have hapi : ApiSchema.check foldedCatalog = .ok () := by decide +kernel
  exact (Run.exists_renderAll_iff (Corpus.isSound_of_catalog folded_isParsed catalog_folded)).mpr
    ⟨hhost o.docs, hapi⟩

theorem answers_of_renderAll_folded : folded.IsParsed ∧ folded.catalog = .ok foldedCatalog ∧
    ∀ s o, ∃ staged, Run.renderAll s o foldedCatalog Target.all .empty = .ok staged ∧
      ∃ files : Target → Files, staged = Target.all.map (fun t => ⟨s.outputDir t, files t⟩) ∧
        ∃ defs resources, Speaks o foldedCatalog files defs resources ∧
          Answers foldedCatalog defs resources := by
  refine ⟨folded_isParsed, catalog_folded, fun s o => ?_⟩
  obtain ⟨staged, hrun⟩ := exists_renderAll_folded s o
  exact ⟨staged, hrun, answers_of_renderAll folded_isParsed catalog_folded hrun⟩

/-- The query of the first of the two tables is printed in the schema and exported by the module of that
table, but no resolver answers it: the resolver of the other one's query has replaced it. -/
theorem exists_field_unanswered : folded.IsParsed ∧ folded.catalog = .ok foldedCatalog ∧
    ∀ s o, ∃ staged, Run.renderAll s o foldedCatalog Target.all .empty = .ok staged ∧
      ∃ files : Target → Files, staged = Target.all.map (fun t => ⟨s.outputDir t, files t⟩) ∧
        ∃ defs resources, Speaks o foldedCatalog files defs resources ∧
          ("Query", "queryORDERByLineByDay") ∈ ApiSchema.rootFields defs ∧
            ("Query", "queryORDERByLineByDay") ∉ (Infra.bindings resources).map Infra.Binding.rootField := by
  refine ⟨folded_isParsed, catalog_folded, fun s o => ?_⟩
  have hc := Corpus.isSound_of_catalog folded_isParsed catalog_folded
  let order : Table :=
    ⟨"ORDER", "1", none, [⟨"lineByDay", .scalar .string, false, none⟩], "lineByDay", none, []⟩
  let byLine : Table := ⟨"OrderByLine", "1", none, [⟨"day", .scalar .string, false, none⟩], "day", none, []⟩
  have htables : foldedCatalog.tables = [order, byLine] := by decide +kernel
  let lost : Operation := queryOperation order ⟨["lineByDay"], none, none⟩
  let last : Operation := queryOperation byLine ⟨["day"], none, none⟩
  have hall : foldedCatalog.tables.flatMap (kept foldedCatalog) =
      kept foldedCatalog order ++ kept foldedCatalog byLine := by
    rw [htables, List.flatMap_cons, List.flatMap_singleton]
  have hlost : lost ∈ kept foldedCatalog order := by
    refine mem_kept_iff.mpr ⟨by decide, ?_⟩
    rw [htables]
    decide
  have hlast : last ∈ kept foldedCatalog byLine := by
    refine mem_kept_iff.mpr ⟨by decide, ?_⟩
    rw [htables]
    decide
  have hid : Infra.resolverId lost = Infra.resolverId last := by decide +kernel
  have hn := Corpus.isNamed_of_catalog folded_isParsed catalog_folded
  obtain ⟨staged, hrun⟩ := exists_renderAll_folded s o
  obtain ⟨files, hstaged, ds, enums, defs, hcomposed, hspeaks⟩ := speaks_of_renderAll hc hn hrun
  refine ⟨staged, hrun, files, hstaged, defs, _, hspeaks, ?_, fun hanswered => ?_⟩
  · rw [hcomposed.rootFields_perm.mem_iff, hall]
    exact List.mem_map.mpr ⟨lost, List.mem_append_left _ hlost, rfl⟩
  · -- the last operation with the id is one of the second table
    have hmem : lost ∈ foldedCatalog.tables.flatMap (kept foldedCatalog) :=
      hall ▸ List.mem_append_left _ hlost
    have hown := (Infra.rootField_mem_bindings_iff hc hmem).mp hanswered
    obtain ⟨op, hop⟩ := Infra.exists_lastWith hlast
    rw [hall, hid, Infra.lastWith_append, hop, Option.some_or] at hown
    have hentity := entity_of_mem_candidates (mem_kept_iff.mp (Infra.of_lastWith_eq_some hop).1).1
    rw [Option.some.inj hown] at hentity
    exact absurd hentity (by decide)

end SchemaGen
