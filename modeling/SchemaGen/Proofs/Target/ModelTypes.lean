import SchemaGen.Proofs.Target.ModelFiles

/-!
# Types of the models

The module of an entity declares its type and, if it is a table, every type that is generated for it, each
of them once, and every enum has a file of its own. No two of these types and enums share a name. The client
models, however, export the operations of tables together with types whose names no catalog keeps free. They
end otherwise than all generated names do, but an entity or an enum may be called so, and is exported twice
then.

Results:
1. `startsUpper_of_mem_modelTypes`, `not_startsUpper_of_mem_candidates`: how names start.
2. `count_exports_eq_one_iff`: which types the modules of a target export once.
3. `modelTypes_kept`: what the modules declare.
-/

namespace SchemaGen

open Emission

variable {c : Catalog} {o : Options} {t : Target} {r r' : Registry} {files : Files}
  {decls : Entity → List TypeDecl} {e : Entity} {n : String} {table : Table} {op : Operation}

/-- The names of the types that the models have: those of the entities' types, and those of the enums. -/
def modelTypes (c : Catalog) : List String :=
  c.entityList.flatMap modelNames ++ c.enumList.map EnumType.name

/-- The names of the types that go with the operations which the tables keep. -/
def operationTypes (c : Catalog) : List String :=
  c.tables.flatMap fun table => (kept c table).flatMap Operation.clientTypes

/-! ## How names start and end -/

/-- Whether the name starts in upper case. -/
def startsUpper (n : String) : Bool := n.toList.head?.any Char.isUpper

theorem startsUpper_append {start : String} (h : start ≠ "") (text : String) :
    startsUpper (start ++ text) = startsUpper start := by
  unfold startsUpper
  rw [String.toList_append]
  cases hs : start.toList with
  | nil => exact absurd (String.toList_eq_nil_iff.mp hs) h
  | cons d rest => rfl

theorem startsUpper_of_isTypeName (h : isTypeName n.toList = true) : startsUpper n = true ∧ n ≠ "" := by
  unfold startsUpper
  cases hn : n.toList with
  | nil =>
    rw [hn] at h
    cases h
  | cons d rest =>
    rw [hn] at h
    refine ⟨(Bool.and_eq_true_iff.mp h).1, ?_⟩
    rintro rfl
    cases hn

theorem startsUpper_of_generated (he : startsUpper e.name = true ∧ e.name ≠ "")
    (hn : n ∈ Corpus.generatedNames e) : startsUpper n = true := by
  have hown : ∀ text, startsUpper (e.name ++ text) = true := fun text =>
    (startsUpper_append he.2 text).trans he.1
  have hverb : ∀ verb ∈ ["Create", "Update", "Delete"], ∀ name text,
      startsUpper (verb ++ name ++ text) = true := by
    intro verb hverb name text
    have hstart : ∀ verb ∈ ["Create", "Update", "Delete"], verb ≠ "" ∧ startsUpper verb = true := by decide
    rw [String.append_assoc]
    exact (startsUpper_append (hstart verb hverb).1 _).trans (hstart verb hverb).2
  cases e with
  | object obj =>
    rw [List.mem_singleton.mp hn]
    exact hown _
  | table table =>
    rcases List.mem_append.mp hn with hn | hn
    · simp only [List.mem_cons, List.not_mem_nil, or_false] at hn
      rcases hn with rfl | rfl | rfl | rfl | rfl
      · exact hverb "Create" (by decide) _ _
      · exact hverb "Update" (by decide) _ _
      · exact hverb "Delete" (by decide) _ _
      · exact hown _
      · exact hown _
    · obtain ⟨key, -, rfl⟩ := List.mem_map.mp hn
      unfold Naming.queryInput
      rw [String.append_assoc, String.append_assoc]
      exact hown _

theorem startsUpper_of_mem_modelTypes (hc : c.IsSound) (h : n ∈ modelTypes c) : startsUpper n = true := by
  rcases List.mem_append.mp h with h | h
  · obtain ⟨e, he, hn⟩ := List.mem_flatMap.mp h
    have hown := startsUpper_of_isTypeName (hc.isTypeName_entity he)
    rcases of_mem_modelNames hn with rfl | hn
    · exact hown.1
    · exact startsUpper_of_generated hown hn
  · obtain ⟨enum, henum, rfl⟩ := List.mem_map.mp h
    exact (startsUpper_of_isTypeName (hc.isTypeName_enum henum)).1

theorem not_startsUpper_of_mem_candidates (h : op ∈ candidates table) : startsUpper op.name = false := by
  rcases mem_candidates_iff.mp h with ⟨verb, hv, rfl⟩ | ⟨key, -, rfl⟩
  · have hstart : ∀ verb ∈ Naming.verbs, verb ≠ "" ∧ startsUpper verb = false := by decide
    show startsUpper (Naming.toCamel verb ++ table.name) = false
    rw [Naming.toCamel_verb hv]
    exact (startsUpper_append (hstart verb hv).1 _).trans (hstart verb hv).2
  · show startsUpper ("query" ++ table.name ++ "By" ++ Naming.byAttributes key.required) = false
    rw [String.append_assoc, String.append_assoc]
    exact startsUpper_append (by decide) _

/-- Generated names end otherwise than those of the types that go with operations. -/
theorem not_mem_operationTypes_of_generated (h : n ∈ Corpus.generatedNames e) : n ∉ operationTypes c := by
  have happart : ∀ mark ∈ ["Variables", "Result"], ∀ kind ∈ ["Input", "Response"],
      ¬ kind.toList <:+ mark.toList ∧ ¬ mark.toList <:+ kind.toList := by decide
  have hends : ∀ mark ∈ ["Variables", "Result"], ∀ title : String, n ≠ title ++ mark := by
    rintro mark hmark title rfl
    have hother : ∀ kind ∈ ["Input", "Response"], ¬ kind.toList <:+ (title ++ mark).toList := by
      intro kind hkind hs
      rcases List.suffix_or_suffix_of_suffix (Naming.suffix_append title mark) hs with hs | hs
      · exact (happart mark hmark kind hkind).2 hs
      · exact (happart mark hmark kind hkind).1 hs
    exact (ApiSchema.endsGenerated_of_mem h).elim (hother "Input" (by decide)) (hother "Response" (by decide))
  intro hm
  obtain ⟨table, -, hm⟩ := List.mem_flatMap.mp hm
  obtain ⟨op, -, hm⟩ := List.mem_flatMap.mp hm
  simp only [Operation.clientTypes, List.mem_cons, List.not_mem_nil, or_false] at hm
  rcases hm with hm | hm
  · exact hends _ List.mem_cons_self _ hm
  · exact hends _ (List.mem_cons_of_mem _ List.mem_cons_self) _ hm

/-! ## What is exported -/

/-- The names that the modules of operations export. -/
def operationExports (c : Catalog) (t : Target) : List String :=
  (t.operationTables c).flatMap fun table => (ModelModule.operations table (kept c table)).exports

/-- The name of a type is among them only as that of a type that goes with an operation. -/
theorem mem_operationExports_iff (hc : c.IsSound) (hn : n ∈ modelTypes c) :
    n ∈ operationExports c t ↔ t = .typescript ∧ n ∈ operationTypes c := by
  have hexport : ∀ table, n ∈ (ModelModule.operations table (kept c table)).exports ↔
      n ∈ (kept c table).flatMap Operation.clientTypes := by
    intro table
    unfold ModelModule.exports
    simp only [List.mem_flatMap, List.mem_cons]
    refine exists_congr fun op => and_congr_right fun hop => or_iff_right fun hname => ?_
    have hupper := startsUpper_of_mem_modelTypes hc hn
    rw [hname, not_startsUpper_of_mem_candidates (mem_kept_iff.mp hop).1] at hupper
    cases hupper
  unfold operationExports operationTypes
  simp only [List.mem_flatMap (b := n), hexport]
  cases t <;> simp [Target.operationTables]

theorem flatMap_exports (c : Catalog) (t : Target) (decls : Entity → List TypeDecl) :
    (t.modelModules c decls).flatMap ModelModule.exports =
      (c.entityList.flatMap fun e => (decls e).map TypeDecl.name) ++ operationExports c t ++
        c.enumList.map EnumType.name := by
  unfold Target.modelModules operationExports
  rw [List.flatMap_append, List.flatMap_append, List.flatMap_map, List.flatMap_map, List.flatMap_map]
  congr 1
  exact List.map_eq_flatMap.symm

section

variable (hc : c.IsSound) (hd : ∀ e ∈ c.entityList, Artifact e (decls e))

include hc hd

/-- The modules of a target export the name of a type once more than its modules of operations do. -/
theorem count_exports (hn : n ∈ modelTypes c) :
    ((t.modelModules c decls).flatMap ModelModule.exports).count n = (operationExports c t).count n + 1 := by
  have hmem : n ∈ (c.entityList.flatMap fun e => (decls e).map TypeDecl.name) ++
      c.enumList.map EnumType.name := by
    refine List.mem_append.mpr ((List.mem_append.mp hn).imp_left fun hn => ?_)
    obtain ⟨e, he, hn⟩ := List.mem_flatMap.mp hn
    exact List.mem_flatMap.mpr ⟨e, he, ((hd e he).names n).mpr hn⟩
  have honce := List.count_eq_one_of_mem (nodup_declaredNames hc hd) hmem
  rw [List.count_append] at honce
  rw [flatMap_exports, List.count_append, List.count_append]
  omega

/-- The modules of a target export the name of a type once, unless the client models export it with an
operation, too. -/
theorem count_exports_eq_one_iff (hn : n ∈ modelTypes c) :
    ((t.modelModules c decls).flatMap ModelModule.exports).count n = 1 ↔
      (t = .typescript → n ∉ operationTypes c) := by
  rw [count_exports hc hd hn, Nat.add_eq_right, List.count_eq_zero, mem_operationExports_iff hc hn, not_and]

end

/-! ## Modules -/

theorem nodup_moduleFiles (hc : c.IsSound) (ht : t ∈ Target.models) :
    ((t.modelModules c decls).map (ModelModule.file t.extension)).Nodup := by
  simp only [Target.models, List.mem_cons, List.not_mem_nil, or_false] at ht
  rcases ht with rfl | rfl
  · have hfiles := (List.nodup_append.mp (HostModel.nodup_expectedFiles hc)).1
    simp only [Target.modelModules, Target.operationTables, List.map_append, List.map_map, List.map_nil,
      List.append_nil]
    exact hfiles
  · have hfiles := (List.nodup_append.mp (ClientModel.nodup_expectedFiles hc)).1
    simp only [Target.modelModules, Target.operationTables, List.map_append, List.map_map]
    exact hfiles

/-- What the modules of the models declare. The module of an entity declares its types, each once; no two
modules are one file, and no two types or enums have one name. All modules together export the name of a type
or of an enum once, except that in the client models a type may go with an operation that has the same name;
no generated name is such a one. The types that go with an operation are written on lines of their own, with the
operation. -/
structure KeepsTypes (c : Catalog) (t : Target) (decls : Entity → List TypeDecl) : Prop where
  declared : ∀ e ∈ c.entityList, ((decls e).map TypeDecl.name).Nodup ∧
    ∀ n, n ∈ (decls e).map TypeDecl.name ↔ n ∈ modelNames e
  files : ((t.modelModules c decls).map (ModelModule.file t.extension)).Nodup
  apart : ((c.entityList.flatMap fun e => (decls e).map TypeDecl.name) ++
    c.enumList.map EnumType.name).Nodup
  once : ∀ n ∈ modelTypes c, ((t.modelModules c decls).flatMap ModelModule.exports).count n = 1 ↔
    (t = .typescript → n ∉ operationTypes c)
  generated : ∀ e ∈ c.entityList, ∀ n ∈ Corpus.generatedNames e, n ∉ operationTypes c
  written : t = .typescript → ∀ table ∈ c.tables, ∀ op ∈ kept c table, ∀ n ∈ op.clientTypes,
    ∃ body, "export type " ++ n ++ " = " ++ body ∈
      ClientModel.operationLines (Selection.ofName c table.name) op

/-- What the modules declare that a target renders for a catalog made from parsed documents. -/
theorem modelTypes_kept {corpus : Corpus} (hp : corpus.IsParsed) (h : corpus.catalog = .ok c)
    (ht : t ∈ Target.models) (hr : r.IsFresh t) (hrender : t.render o c r = (.ok files, r')) :
    ∃ decls, Printed o c t decls files ∧ KeepsTypes c t decls := by
  have hc := Corpus.isSound_of_catalog hp h
  obtain ⟨decls, hprinted⟩ := printed_of_render hc ht hr hrender
  have hd := hprinted.artifacts
  exact ⟨decls, hprinted, fun e he => ⟨(hd e he).once, (hd e he).names⟩, nodup_moduleFiles hc ht,
    nodup_declaredNames hc hd, fun n => count_exports_eq_one_iff hc hd,
    fun e _ n => not_mem_operationTypes_of_generated,
    fun _ table _ op _ => ClientModel.exists_line_of_clientTypes (Selection.ofName c table.name) op⟩

/-- The source of a table with two keys. -/
def shopSources : List (Path × List String) :=
  [(⟨"Order.yml"⟩, ["name: Order", "kind: table", "version: 1", "model:",
      "  keys: {primary: {partition: id, sort: day}}",
      "  attributes: [{name: id, type: string}, {name: day, type: string}]"])]

/-- The source of an enum. -/
def shopEnums : List String := ["State: [OPEN]"]

/-- The documents that this source and that of the enum are parsed to. -/
def shop : Corpus :=
  ⟨[⟨⟨"Order.yml"⟩, "Order", none, .table ⟨"1", "id", some "day", none,
      [⟨"id", .scalar .string, false, none, none⟩, ⟨"day", .scalar .string, false, none, none⟩]⟩⟩],
    [⟨⟨"enums.yml"⟩, "State", ["OPEN"]⟩]⟩

theorem shop_isParsed : shop.IsParsed := by
  have henums : EnumDoc.parseAll ⟨"enums.yml"⟩ (Text.unlines shopEnums) = .ok shop.enums := by
    decide +kernel
  exact Corpus.isParsed_of_mapM (s := shopSources) (by decide +kernel) (.inr ⟨_, _, henums⟩)

/-- The catalog of these documents. -/
def shopCatalog : Catalog := shop.catalog.toOption.getD .empty

theorem catalog_shop : shop.catalog = .ok shopCatalog := by decide +kernel

theorem modelTypes_kept_shop : shop.IsParsed ∧ shop.catalog = .ok shopCatalog ∧
    ∀ t ∈ Target.models, Registry.IsFresh t .empty ∧ ∀ o : Options, ∃ files r',
      t.render o shopCatalog .empty = (.ok files, r') ∧
        ∃ decls, Printed o shopCatalog t decls files ∧ KeepsTypes shopCatalog t decls := by
  refine ⟨shop_isParsed, catalog_shop, fun t ht => ⟨Registry.isFresh_empty t, fun o => ?_⟩⟩
  have hcheck : ∀ docs, ∀ t ∈ Target.models, t.check docs shopCatalog = .ok () := by decide +kernel
  obtain ⟨files, r', hrender⟩ := Target.exists_render_of_check
    (Corpus.isSound_of_catalog shop_isParsed catalog_shop) (Registry.isFresh_empty t) (hcheck o.docs t ht)
  exact ⟨files, r', hrender,
    modelTypes_kept shop_isParsed catalog_shop ht (Registry.isFresh_empty t) hrender⟩

/-- The source of an object type that is called like the result of an operation of the table `Order`. -/
def receiptSource : List String :=
  ["name: CreateOrderResult", "kind: static", "attributes: [{name: text, type: string}]"]

/-- The document that this source is parsed to, and that of the table. -/
def receipt : Corpus :=
  ⟨⟨⟨"CreateOrderResult.yml"⟩, "CreateOrderResult", none,
      .object .static [⟨"text", .scalar .string, false, none, none⟩]⟩ :: ApiSchema.rooted.documents, []⟩

theorem receipt_isParsed : receipt.IsParsed := by
  have hparse : SchemaDoc.parse ⟨"CreateOrderResult.yml"⟩ (Text.unlines receiptSource) =
      .ok ⟨⟨"CreateOrderResult.yml"⟩, "CreateOrderResult", none,
        .object .static [⟨"text", .scalar .string, false, none, none⟩]⟩ := by decide +kernel
  exact ⟨List.forall_mem_cons.mpr ⟨⟨_, _, hparse⟩, ApiSchema.rooted_isParsed.documents⟩, .inl rfl⟩

/-- The catalog of these documents. -/
def receiptCatalog : Catalog := receipt.catalog.toOption.getD .empty

theorem catalog_receipt : receipt.catalog = .ok receiptCatalog := by decide +kernel

/-- The name of the object type is exported both by its own module and by that of the table's operations. -/
theorem exists_type_exported_twice : receipt.IsParsed ∧ receipt.catalog = .ok receiptCatalog ∧
    "CreateOrderResult" ∈ modelTypes receiptCatalog ∧ ∀ o : Options, ∃ files r',
      Target.render o receiptCatalog .typescript .empty = (.ok files, r') ∧
        ∃ decls, Printed o receiptCatalog .typescript decls files ∧
          (∃ m ∈ Target.typescript.modelModules receiptCatalog decls,
            m.file "ts" = "CreateOrderResult.model.ts" ∧ "CreateOrderResult" ∈ m.exports) ∧
          (∃ m ∈ Target.typescript.modelModules receiptCatalog decls,
            m.file "ts" = "Order.graphql.ts" ∧ "CreateOrderResult" ∈ m.exports) ∧
          ((Target.typescript.modelModules receiptCatalog decls).flatMap ModelModule.exports).count
            "CreateOrderResult" ≠ 1 := by
  let order : Table := ⟨"Order", "1", none, [⟨"id", .scalar .string, false, none⟩], "id", none, []⟩
  let result : Entity :=
    .object ⟨"CreateOrderResult", none, [⟨"text", .scalar .string, false, none⟩], .static⟩
  let op : Operation := itemOperation order "create" (Naming.createInput "Order")
  have hc := Corpus.isSound_of_catalog receipt_isParsed catalog_receipt
  have horder : order ∈ receiptCatalog.tables := by decide +kernel
  have hresult : result ∈ receiptCatalog.entityList := by decide +kernel
  have htype : "CreateOrderResult" ∈ modelTypes receiptCatalog :=
    List.mem_append_left _ (List.mem_flatMap.mpr ⟨result, hresult, List.mem_singleton.mpr rfl⟩)
  have hkept : op ∈ kept receiptCatalog order := mem_kept_of_mutation List.mem_cons_self rfl
  have hname : "CreateOrderResult" ∈ op.clientTypes := by decide +kernel
  refine ⟨receipt_isParsed, catalog_receipt, htype, fun o => ?_⟩
  obtain ⟨files, r', hrender⟩ := Target.exists_render_of_check (o := o) (t := .typescript) hc
    (Registry.isFresh_empty _) rfl
  obtain ⟨decls, hprinted⟩ := printed_of_render hc (by decide) (Registry.isFresh_empty _) hrender
  refine ⟨files, r', hrender, decls, hprinted, ⟨.types result (decls result), ?_, rfl, ?_⟩,
    ⟨.operations order (kept receiptCatalog order), ?_, rfl, ?_⟩, fun hcount => ?_⟩
  · exact List.mem_append_left _ (List.mem_append_left _ (List.mem_map_of_mem hresult))
  · exact List.mem_map_of_mem (hprinted.artifacts result hresult).own
  · exact List.mem_append_left _ (List.mem_append_right _ (List.mem_map_of_mem horder))
  · exact List.mem_flatMap.mpr ⟨op, hkept, List.mem_cons_of_mem _ hname⟩
  · refine (count_exports_eq_one_iff hc hprinted.artifacts htype).mp hcount rfl ?_
    exact List.mem_flatMap.mpr ⟨order, horder, List.mem_flatMap.mpr ⟨op, hkept, hname⟩⟩

end SchemaGen
