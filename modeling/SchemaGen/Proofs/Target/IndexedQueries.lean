import SchemaGen.Proofs.Target.QueryNames

/-!
# Queries by an indexed attribute

The query by the attribute that an index starts with is meant to go through that index. Its operation is
named for the attribute alone, and the query keys of the table are searched for the name in their order: by
the primary key first, then through the indexes. So the sort attribute of the table stands for an index on
it, and since the primary key cannot be asked by its sort attribute alone, such a query scans the table
although it has the index. Apart from this, a query is diverted only by another attribute with the same words.

Results:
1. `standsFor_of_standing?`: the key that stands for an index.
2. `servesIndexed_of_catalog`: when a query by an indexed attribute scans the table, and when it goes through
   an index on the attribute.
3. `exists_indexed_scan`: a table that is scanned for an attribute that it has an index on.
-/

namespace SchemaGen

open Emission Naming

variable {c : Catalog} {table : Table} {i j : Index} {sort : String}

/-- The query key of an index. -/
def Index.queryKey (i : Index) : QueryKey := ⟨[i.partition], i.sort, some i.name⟩

/-- The attribute has the words of another one. -/
def SameWords (a b : String) : Prop := attributeWords a = attributeWords b

instance (a b : String) : Decidable (SameWords a b) :=
  inferInstanceAs (Decidable (attributeWords a = attributeWords b))

/-- The first index of the table that starts with the words of an attribute. -/
def Table.indexOn? (table : Table) (n : String) : Option Index :=
  table.indexes.find? fun j => SameWords j.partition n

theorem of_indexOn?_eq_some {n : String} (h : table.indexOn? n = some j) :
    j ∈ table.indexes ∧ SameWords j.partition n := by
  unfold Table.indexOn? at h
  have hwords := List.find?_some h
  exact ⟨List.mem_of_find?_eq_some h, of_decide_eq_true hwords⟩

theorem mem_queryKeys_of_index (h : i ∈ table.indexes) : i.queryKey ∈ table.queryKeys :=
  Infra.mem_queryKeys_iff.mpr (.inr (.inr ⟨i, h, rfl⟩))

/-! ## The key that stands for an index -/

/-- A key stands for an index: the one by the partition, by the sort attribute, by both, or else that of the
first index, whichever has the words of the attribute. -/
inductive StandsFor (table : Table) (i : Index) : QueryKey → Prop
  | partition (h : SameWords table.partition i.partition) : StandsFor table i ⟨[table.partition], none, none⟩
  | sort {sort : String} (hp : ¬ SameWords table.partition i.partition) (hs : table.sort = some sort)
      (h : SameWords sort i.partition) : StandsFor table i ⟨[sort], none, none⟩
  | both {sort : String} (hp : ¬ SameWords table.partition i.partition) (hs : table.sort = some sort)
      (hne : ¬ SameWords sort i.partition)
      (h : queryWords [table.partition, sort] = attributeWords i.partition) :
      StandsFor table i ⟨[table.partition, sort], none, none⟩
  | index {j : Index} (hp : ¬ SameWords table.partition i.partition)
      (hs : ∀ sort ∈ table.sort, ¬ SameWords sort i.partition ∧
        queryWords [table.partition, sort] ≠ attributeWords i.partition)
      (h : table.indexOn? i.partition = some j) : StandsFor table i j.queryKey

theorem queryWords_beq (a b : String) : (queryWords [a] == attributeWords b) = decide (SameWords a b) := by
  rw [queryWords_singleton, Bool.eq_iff_iff, beq_iff_eq, decide_eq_true_iff]
  exact Iff.rfl

/-- The first of the keys of the indexes with the words of an attribute. -/
theorem find?_map_queryKey (table : Table) (n : String) :
    ((table.indexes.map Index.queryKey).find? fun other => queryWords other.required == attributeWords n) =
      (table.indexOn? n).map Index.queryKey := by
  rw [List.find?_map]
  exact congrArg _ (congrArg (List.find? · table.indexes) (funext fun j => queryWords_beq j.partition n))

theorem queryKeys_eq (table : Table) : table.queryKeys = ⟨[table.partition], none, none⟩ ::
    ((table.sort.toList.flatMap fun sort => [⟨[sort], none, none⟩, ⟨[table.partition, sort], none, none⟩]) ++
      table.indexes.map Index.queryKey) := by
  unfold Table.queryKeys
  cases table.sort <;> rfl

theorem standsFor_of_standing? {first : QueryKey} (h : table.standing? i.queryKey = some first) :
    StandsFor table i first := by
  have hwords : queryWords i.queryKey.required = attributeWords i.partition := queryWords_singleton _
  unfold Table.standing? at h
  rw [hwords, queryKeys_eq, List.find?_cons, queryWords_beq] at h
  by_cases hp : SameWords table.partition i.partition
  · rw [decide_eq_true hp] at h
    cases h
    exact .partition hp
  · rw [decide_eq_false hp, List.find?_append, find?_map_queryKey] at h
    cases hs : table.sort with
    | none =>
      rw [hs] at h
      obtain ⟨j, hj, rfl⟩ := Option.map_eq_some_iff.mp h
      exact .index hp (by simp [hs]) hj
    | some sort =>
      rw [hs] at h
      rw [Option.toList_some, List.flatMap_singleton, List.find?_cons, List.find?_singleton, queryWords_beq] at h
      by_cases hsort : SameWords sort i.partition
      · rw [decide_eq_true hsort] at h
        cases h
        exact .sort hp hs hsort
      · rw [decide_eq_false hsort] at h
        by_cases hboth : queryWords [table.partition, sort] = attributeWords i.partition
        · rw [beq_iff_eq.mpr hboth] at h
          cases h
          exact .both hp hs hsort hboth
        · rw [beq_eq_false_iff_ne.mpr hboth] at h
          obtain ⟨j, hj, rfl⟩ := Option.map_eq_some_iff.mp h
          exact .index hp (by simp [hs, hsort, hboth]) hj

/-! ## Requests -/

namespace Infra

/-- The script scans a table. -/
def Scans (script : List Stmt) : Prop := ∃ index, ("scan", index) ∈ calls script

/-- The script queries the table by an attribute through an index that starts with it. -/
def AsksIndex (table : Table) (n : String) (script : List Stmt) : Prop :=
  ∃ j ∈ table.indexes, j.partition = n ∧ calls script = [("query", some j.name)] ∧
    conditions script = [Expr.equal n]

theorem scans_scan (names : List String) : Scans (Request.scan names).script :=
  ⟨none, List.mem_singleton.mpr rfl⟩

theorem not_scans_query (names : List String) (narrowing index : Option String) :
    ¬ Scans (Request.query names narrowing index).script := by
  rintro ⟨_, h⟩
  rw [calls_query, List.mem_singleton] at h
  exact absurd (congrArg Prod.fst h) (by simp)

theorem not_asksIndex_scan {n : String} (names : List String) :
    ¬ AsksIndex table n (Request.scan names).script := by
  rintro ⟨j, -, -, h, -⟩
  exact absurd (congrArg Prod.fst (List.singleton_inj.mp h)) (by simp)

theorem not_asksIndex_query {n : String} (names : List String) (narrowing : Option String) :
    ¬ AsksIndex table n (Request.query names narrowing none).script := by
  rintro ⟨j, -, -, h, -⟩
  rw [calls_query] at h
  cases h

theorem asksIndex_query_iff {n : String} (h : j ∈ table.indexes) :
    AsksIndex table n (queryRequest table j.queryKey).script ↔ j.partition = n := by
  rw [queryRequest_eq_query fun hnone => by cases hnone]
  constructor
  · rintro ⟨_, -, -, -, hon⟩
    rw [conditions_query] at hon
    exact congrArg Prod.fst (List.singleton_inj.mp hon)
  · rintro rfl
    exact ⟨j, h, rfl, calls_query _ _ _, conditions_query _ _ _⟩

theorem queryRequest_sort (h : sort ≠ table.partition) :
    queryRequest table ⟨[sort], none, none⟩ = .scan [sort] :=
  (queryRequest_scan_iff table _ _).mpr ⟨rfl, rfl, fun he => h (Option.some.inj he)⟩

/-- The request for the key that stands for an index scans the table where this is the key by the sort
attribute. -/
theorem scans_standing_iff {first : QueryKey} (h : StandsFor table i first) :
    Scans (queryRequest table first).script ↔
      ¬ SameWords table.partition i.partition ∧ ∃ sort ∈ table.sort, SameWords sort i.partition := by
  have hquery : (first.index = none → first.required.head? = some table.partition) →
      ¬ Scans (queryRequest table first).script := fun hhead => by
    rw [queryRequest_eq_query hhead]
    exact not_scans_query _ _ _
  cases h with
  | partition hp => exact iff_of_false (hquery fun _ => rfl) fun h => h.1 hp
  | sort hp hs hsort =>
    refine iff_of_true ?_ ⟨hp, _, hs, hsort⟩
    rw [queryRequest_sort fun he => hp (he ▸ hsort)]
    exact scans_scan _
  | both hp hs hne hboth =>
    refine iff_of_false (hquery fun _ => rfl) fun ⟨_, sort, hsort, hwords⟩ => hne ?_
    cases hs.symm.trans hsort
    exact hwords
  | index hp hs hj => exact iff_of_false (hquery nofun) fun ⟨_, sort, hsort, hwords⟩ => (hs sort hsort).1 hwords

/-- The request goes through an index on the attribute where no key without an index has its words, and the
first index with these starts with the attribute itself. -/
theorem asksIndex_standing_iff {first : QueryKey} (h : StandsFor table i first) :
    AsksIndex table i.partition (queryRequest table first).script ↔
      (∀ key ∈ table.queryKeys, key.index = none → queryWords key.required ≠ attributeWords i.partition) ∧
        (table.indexOn? i.partition).map Index.partition = some i.partition := by
  -- a key without an index that has the words of the attribute speaks against the right side
  have hprimary : first.index = none → first ∈ table.queryKeys →
      queryWords first.required = attributeWords i.partition →
        ¬ ∀ key ∈ table.queryKeys, key.index = none → queryWords key.required ≠ attributeWords i.partition :=
    fun hnone hmem hwords hall => hall first hmem hnone hwords
  cases h with
  | partition hp =>
    rw [queryRequest_eq_query fun _ => rfl]
    refine iff_of_false (not_asksIndex_query _ _) (not_and_of_not_left _ (hprimary rfl ?_ ?_))
    · exact mem_queryKeys_iff.mpr (.inl rfl)
    · exact (queryWords_singleton _).trans hp
  | sort hp hs hsort =>
    rw [queryRequest_sort fun he => hp (he ▸ hsort)]
    refine iff_of_false (not_asksIndex_scan _) (not_and_of_not_left _ (hprimary rfl ?_ ?_))
    · exact mem_queryKeys_iff.mpr (.inr (.inl ⟨_, hs, .inl rfl⟩))
    · exact (queryWords_singleton _).trans hsort
  | both hp hs hne hboth =>
    rw [queryRequest_eq_query fun _ => rfl]
    refine iff_of_false (not_asksIndex_query _ _) (not_and_of_not_left _ (hprimary rfl ?_ hboth))
    exact mem_queryKeys_iff.mpr (.inr (.inl ⟨_, hs, .inr rfl⟩))
  | index hp hs hj =>
    rw [asksIndex_query_iff (of_indexOn?_eq_some hj).1, hj, Option.map_some, Option.some.injEq]
    refine (and_iff_right ?_).symm
    intro key hkey hnone
    rcases mem_queryKeys_iff.mp hkey with rfl | ⟨sort, hsort, rfl | rfl⟩ | ⟨_, -, rfl⟩
    · exact fun he => hp ((queryWords_singleton _).symm.trans he)
    · exact fun he => (hs sort hsort).1 ((queryWords_singleton _).symm.trans he)
    · exact (hs sort hsort).2
    · cases hnone

/-- Where the words of an attribute are those of no other key, the request goes through an index on the
attribute, unless the table is sorted by it. -/
theorem asksIndex_or_scans {first : QueryKey} (hne : i.partition ≠ table.partition)
    (hmem : first ∈ table.queryKeys) (h : StandsFor table i first) (hapart : ∀ key ∈ table.queryKeys,
      queryWords key.required = attributeWords i.partition → key.required = [i.partition]) :
    if table.sort = some i.partition then Scans (queryRequest table first).script
    else AsksIndex table i.partition (queryRequest table first).script := by
  have hfirst := hapart first hmem
  cases h with
  | partition hp => exact absurd (List.singleton_inj.mp (hfirst ((queryWords_singleton _).trans hp))).symm hne
  | sort hp hs hsort =>
    have hsame := List.singleton_inj.mp (hfirst ((queryWords_singleton _).trans hsort))
    rw [if_pos (hsame ▸ hs), queryRequest_sort fun he => hp (he ▸ hsort)]
    exact scans_scan _
  | both hp hs hne hboth => exact absurd (List.cons.inj (hfirst hboth)).2 (List.cons_ne_nil _ _)
  | index hp hs hj =>
    obtain ⟨hindex, hwords⟩ := of_indexOn?_eq_some hj
    have hsame := List.singleton_inj.mp (hfirst ((queryWords_singleton _).trans hwords))
    rw [if_neg fun hsort : table.sort = some i.partition => (hs _ hsort).1 rfl]
    exact (asksIndex_query_iff hindex).mpr hsame

/-! ## Tables -/

/-- How a table serves the query by the attribute that one of its indexes starts with: there is a resolver for
the operation, which is what answers it. The code in the resource of the resolver is the text of a script, with
what brings the library and the context before it and what answers after it. This script scans the table exactly
if the sort attribute, and not the partition, has the words of the attribute. It goes through an index on the
attribute exactly if no key without an index has these words, and the first index that has them starts with the
attribute. So among keys that are told apart by their words, the query goes through an index unless the table
is sorted by the attribute, and then it is a scan. -/
structure ServesIndexed (c : Catalog) (table : Table) (i : Index) (resolver : Resolver) : Prop where
  made : Infra.resolver table (queryOperation table i.queryKey) = .ok resolver
  code : resolver.resource.textAt? ["Properties", "Code"] =
    some (codeOf resolver.request.script resolver.request.data)
  scans : Scans resolver.request.script ↔
    ¬ SameWords table.partition i.partition ∧ ∃ sort ∈ table.sort, SameWords sort i.partition
  asks : AsksIndex table i.partition resolver.request.script ↔
    (∀ key ∈ table.queryKeys, key.index = none → queryWords key.required ≠ attributeWords i.partition) ∧
      (table.indexOn? i.partition).map Index.partition = some i.partition
  apart : (∀ key ∈ table.queryKeys,
      queryWords key.required = attributeWords i.partition → key.required = [i.partition]) →
    if table.sort = some i.partition then Scans resolver.request.script
    else AsksIndex table i.partition resolver.request.script
  answered : IsAnswered c table (queryOperation table i.queryKey) resolver

theorem servesIndexed_of_catalog {corpus : Corpus} (hp : corpus.IsParsed) (h : corpus.catalog = .ok c)
    (ht : table ∈ c.tables) (hi : i ∈ table.indexes) (hne : i.partition ≠ table.partition) :
    ∃ resolver, ServesIndexed c table i resolver := by
  have hc := Corpus.isSound_of_catalog hp h
  have hkey := mem_queryKeys_of_index hi
  obtain ⟨first, hfirst⟩ := exists_firstKey? hkey
  have hstanding := hfirst
  rw [firstKey?_eq_standing? hc ht hkey] at hstanding
  have hstands := standsFor_of_standing? hstanding
  have hresolver := resolver_of_request (request_queryOperation hfirst)
  exact ⟨_, hresolver, code_of_resolver hresolver, scans_standing_iff hstands, asksIndex_standing_iff hstands,
    asksIndex_or_scans hne (of_standing?_eq_some hstanding).1 hstands, isAnswered_of_resolver hc ht hresolver⟩

/-- The source of a table that is sorted by the attribute of an index. -/
def daysSource : List String :=
  ["name: Order", "kind: table", "version: 1", "model:",
    "  keys: {primary: {partition: id, sort: day}, secondary: [{name: by-day, partition: day}]}",
    "  attributes: [{name: id, type: string}, {name: day, type: string}]"]

/-- The document that it is parsed to. -/
def days : Corpus :=
  let attr (name : String) : AttributeDoc := ⟨name, .scalar .string, false, none, none⟩
  ⟨[⟨⟨"Order.yml"⟩, "Order", none, .table ⟨"1", "id", some "day",
    some [⟨"by-day", .gsi, "day", none, .all⟩], [attr "id", attr "day"]⟩⟩], []⟩

theorem days_isParsed : days.IsParsed :=
  Corpus.isParsed_of_mapM (s := [(⟨"Order.yml"⟩, daysSource)]) (by decide +kernel) (.inl rfl)

/-- The catalog of this document. -/
def daysCatalog : Catalog := days.catalog.toOption.getD .empty

theorem catalog_days : days.catalog = .ok daysCatalog := by decide +kernel

theorem servesIndexed_of_catalog_days : days.IsParsed ∧ days.catalog = .ok daysCatalog ∧
    ∃ table ∈ daysCatalog.tables, ∃ i ∈ table.indexes, i.partition ≠ table.partition ∧
      ∃ resolver, ServesIndexed daysCatalog table i resolver := by
  have htable : ∃ table ∈ daysCatalog.tables, ∃ i ∈ table.indexes, i.partition ≠ table.partition := by
    decide +kernel
  obtain ⟨table, ht, i, hi, hne⟩ := htable
  exact ⟨days_isParsed, catalog_days, table, ht, i, hi, hne,
    servesIndexed_of_catalog days_isParsed catalog_days ht hi hne⟩

/-- The table has an index on the attribute, and the code of the resolver scans it. -/
theorem exists_indexed_scan : days.IsParsed ∧ days.catalog = .ok daysCatalog ∧
    ∃ table ∈ daysCatalog.tables, ∃ i ∈ table.indexes, i.partition ≠ table.partition ∧ i.name = "by-day" ∧
      (queryOperation table i.queryKey).name = "queryOrderByDay" ∧
        Infra.request table (queryOperation table i.queryKey) = .ok (.scan ["day"]) ∧
          ((Infra.resolver table (queryOperation table i.queryKey)).toOption.bind fun resolver =>
              resolver.resource.textAt? ["Properties", "Code"]) =
            some (Text.unlines
              ["import * as ddb from '@aws-appsync/utils/dynamodb';",
               "",
               "export function request(ctx) \x7b",
               "  const \x7b input \x7d = ctx.args;",
               "  return ddb.scan(\x7b filter: \x7b day: \x7b eq: input.day \x7d \x7d \x7d);",
               "\x7d",
               "",
               "export function response(ctx) \x7b",
               "  if (ctx.error) \x7b",
               "    return \x7b statusCode: 500, message: ctx.error.message, data: null \x7d;",
               "  \x7d",
               "  return \x7b statusCode: 200, message: null, data: ctx.result.items \x7d;",
               "\x7d"]) :=
  ⟨days_isParsed, catalog_days, by decide +kernel⟩

end Infra

end SchemaGen
