import SchemaGen.Proofs.Naming.Queries
import SchemaGen.Proofs.Target.MatchingResolvers

/-!
# Queries that share a name

The input and the operation of a query are named for the attributes that its key requires, and the names
tell the words of these attributes, but not how the words belong to them. Two keys of a table that require
different attributes with the same words share both names. The first of them is the one that is declared and
answered, and the other one is lost: the check of generated names lets a table have a name twice.

Results:
1. `tellsQueries_of_catalog`: which queries of a table share their names, and which one stands for them.
2. `exists_query_lost`: two indexes of a table, of which one has no query.
-/

namespace SchemaGen

open Emission Naming

variable {c : Catalog} {table : Table} {key key' : QueryKey} {d : TypeDecl}

/-- The first query key of the table with the words of a key. -/
def Table.standing? (table : Table) (key : QueryKey) : Option QueryKey :=
  table.queryKeys.find? fun other => queryWords other.required == queryWords key.required

theorem of_standing?_eq_some {first : QueryKey} (h : table.standing? key = some first) :
    first ∈ table.queryKeys ∧ queryWords first.required = queryWords key.required := by
  unfold Table.standing? at h
  have hwords := List.find?_some h
  exact ⟨List.mem_of_find?_eq_some h, beq_iff_eq.mp hwords⟩

/-- An input is declared for the key that requires the attributes of that key. -/
def HasInput (c : Catalog) (table : Table) (key : QueryKey) : Prop :=
  ∃ d, IsDeclared c table d ∧ d.name = queryInput table.name key.required ∧
    (d.fields.filter Field.required).map Field.name = key.required

/-! ## Names -/

/-- What queries require are camel-case names. -/
theorem isCamelName_of_required (hc : c.IsSound) (ht : table ∈ c.tables) (hk : key ∈ table.queryKeys) :
    ∀ n ∈ key.required, isCamelName n.toList = true := by
  intro n hn
  have he := hc.entity?_of_mem_tables ht
  obtain ⟨a, ha⟩ := hc.attribute?_of_key he ((mem_keyAttributes_of_queryKey hk).1 n hn)
  obtain ⟨hmem, rfl⟩ := of_attribute?_eq_some ha
  exact hc.camel _ _ he a hmem

theorem queryInput_eq_iff_words (hc : c.IsSound) (ht : table ∈ c.tables) (hk : key ∈ table.queryKeys)
    (hk' : key' ∈ table.queryKeys) :
    queryInput table.name key.required = queryInput table.name key'.required ↔
      queryWords key.required = queryWords key'.required := by
  rw [queryInput_eq_iff]
  exact byAttributes_eq_iff (isCamelName_of_required hc ht hk) (isCamelName_of_required hc ht hk')

/-- The first key with the words of a key is the first one with its name. -/
theorem firstKey?_eq_standing? (hc : c.IsSound) (ht : table ∈ c.tables) (hk : key ∈ table.queryKeys) :
    table.firstKey? (queryInput table.name key.required) = table.standing? key := by
  unfold Table.firstKey? Table.standing?
  refine List.find?_congr fun other ho => ?_
  rw [Bool.eq_iff_iff, beq_iff_eq, beq_iff_eq]
  exact queryInput_eq_iff_words hc ht ho hk

/-! ## Inputs -/

/-- The required fields of the input of a query are the attributes that its key requires. -/
theorem required_queryDecl (h : queryDecl table key = .ok d) :
    (d.fields.filter Field.required).map Field.name = key.required := by
  have hfields := congrArg (fun pairs => (pairs.filter Prod.snd).map Prod.fst) (Infra.fields_queryDecl h)
  simp only [List.filter_append, List.filter_map, List.map_append, List.map_map] at hfields
  have htrue : key.required.filter (Prod.snd ∘ fun n => (n, true)) = key.required :=
    List.filter_eq_self.mpr fun _ _ => rfl
  have hfalse : key.optional.toList.filter (Prod.snd ∘ fun n => (n, false)) = [] :=
    List.filter_eq_nil_iff.mpr fun _ _ => Bool.false_ne_true
  rw [htrue, hfalse] at hfields
  refine Eq.trans hfields ?_
  simp [Function.comp_def]

/-- For every key the input of the one that stands for it is declared. -/
theorem exists_declared_input (hc : c.IsSound) (ht : table ∈ c.tables) (hk : key ∈ table.queryKeys) :
    ∃ first ∈ table.queryKeys, table.standing? key = some first ∧ ∃ d, queryDecl table first = .ok d ∧
      d.name = queryInput table.name key.required ∧ IsDeclared c table d := by
  obtain ⟨first, hfirst⟩ := exists_firstKey? hk
  obtain ⟨hmem, hname⟩ := of_firstKey?_eq_some hfirst
  obtain ⟨d, hd⟩ := exists_queryDecl (fun _ hk => hc.attribute?_of_key (hc.entity?_of_mem_tables ht) hk) hmem
  have hdname : d.name = queryInput table.name key.required := (queryDecl_eq_ok hd).1.trans hname
  have hbrings : Brings (.table table) d := .inr ⟨table, rfl, first, by rw [hdname, hfirst], hd⟩
  refine ⟨first, hmem, by rw [← firstKey?_eq_standing? hc ht hk, hfirst], d, hd, hdname, ?_⟩
  refine isDeclared_of_brings hc ht hbrings ?_
  rw [hdname]
  exact List.mem_append.mpr (.inr (List.mem_map.mpr ⟨key, hk, rfl⟩))

/-- Types of one name that are declared for a table are equal. -/
theorem IsDeclared.eq {d' : TypeDecl} (ht : table ∈ c.tables) (hc : c.IsSound) (h : IsDeclared c table d)
    (h' : IsDeclared c table d') (hn : d'.name = d.name) : d' = d := by
  obtain ⟨ds, r', hrun, hmem⟩ := h'.declares .modelArtifact (by simp) .rust .empty rfl
  exact h.only (.table table) (hc.entity?_of_mem_tables ht) .rust .modelArtifact .empty ds r' hrun d' hmem hn

theorem forall_hasInput_iff (hc : c.IsSound) (ht : table ∈ c.tables) :
    (∀ key ∈ table.queryKeys, HasInput c table key) ↔
      ∀ key ∈ table.queryKeys, ∀ key' ∈ table.queryKeys,
        queryWords key.required = queryWords key'.required → key.required = key'.required := by
  constructor
  · intro hall key hk key' hk' hwords
    obtain ⟨d, hd, hn, hrequired⟩ := hall key hk
    obtain ⟨d', hd', hn', hrequired'⟩ := hall key' hk'
    have hname := (queryInput_eq_iff_words hc ht hk hk').mpr hwords
    rw [← hrequired, ← hrequired', hd.eq ht hc hd' (hn'.trans (hname.symm.trans hn.symm))]
  · intro hsame key hk
    obtain ⟨first, hmem, hstands, d, hdecl, hn, hd⟩ := exists_declared_input hc ht hk
    refine ⟨d, hd, hn, ?_⟩
    rw [required_queryDecl hdecl]
    exact hsame first hmem key hk (of_standing?_eq_some hstands).2

/-! ## Tables -/

/-- What the names of a table's queries tell. Two queries share their names exactly when what they require
has the same words; then the first of them is declared and answered under the names; and every query has an
input of its own attributes exactly when no two of them require different attributes with the same words. -/
structure TellsQueries (c : Catalog) (table : Table) : Prop where
  inputs : ∀ key ∈ table.queryKeys, ∀ key' ∈ table.queryKeys,
    queryInput table.name key.required = queryInput table.name key'.required ↔
      queryWords key.required = queryWords key'.required
  operations : ∀ key ∈ table.queryKeys, ∀ key' ∈ table.queryKeys,
    Naming.queryOperation table.name key.required = Naming.queryOperation table.name key'.required ↔
      queryWords key.required = queryWords key'.required
  stands : ∀ key ∈ table.queryKeys, ∃ first ∈ table.queryKeys, table.standing? key = some first ∧
    (∃ d, queryDecl table first = .ok d ∧ d.name = queryInput table.name key.required ∧ IsDeclared c table d) ∧
      Infra.request table (queryOperation table key) = .ok (Infra.queryRequest table first)
  all : (∀ key ∈ table.queryKeys, HasInput c table key) ↔
    ∀ key ∈ table.queryKeys, ∀ key' ∈ table.queryKeys,
      queryWords key.required = queryWords key'.required → key.required = key'.required

theorem tellsQueries_of_catalog {corpus : Corpus} (hp : corpus.IsParsed) (h : corpus.catalog = .ok c)
    (ht : table ∈ c.tables) : TellsQueries c table := by
  have hc := Corpus.isSound_of_catalog hp h
  constructor
  case inputs => exact fun key hk key' hk' => queryInput_eq_iff_words hc ht hk hk'
  case operations =>
    intro key hk key' hk'
    rw [queryOperation_eq_iff]
    exact queryInput_eq_iff_words hc ht hk hk'
  case stands =>
    intro key hk
    obtain ⟨first, hmem, hstands, hdeclared⟩ := exists_declared_input hc ht hk
    refine ⟨first, hmem, hstands, hdeclared, Infra.request_queryOperation ?_⟩
    rw [firstKey?_eq_standing? hc ht hk, hstands]
  case all => exact forall_hasInput_iff hc ht

/-- The source of a table whose key and index differ in the case of their attributes only. -/
def recasedSource : List String :=
  ["name: Order", "kind: table", "version: 1", "model:",
    "  keys: {primary: {partition: userId}, secondary: [{name: by-user, partition: userID}]}",
    "  attributes: [{name: userId, type: string}, {name: userID, type: string}]"]

/-- The document that it is parsed to. -/
def recased : Corpus :=
  let attr (name : String) : AttributeDoc := ⟨name, .scalar .string, false, none, none⟩
  ⟨[⟨⟨"Order.yml"⟩, "Order", none, .table ⟨"1", "userId", none,
    some [⟨"by-user", .gsi, "userID", none, .all⟩], [attr "userId", attr "userID"]⟩⟩], []⟩

theorem recased_isParsed : recased.IsParsed :=
  Corpus.isParsed_of_mapM (s := [(⟨"Order.yml"⟩, recasedSource)]) (by decide +kernel) (.inl rfl)

/-- The catalog of this document. -/
def recasedCatalog : Catalog := recased.catalog.toOption.getD .empty

theorem catalog_recased : recased.catalog = .ok recasedCatalog := by decide +kernel

theorem tellsQueries_of_catalog_recased : recased.IsParsed ∧ recased.catalog = .ok recasedCatalog ∧
    ∃ table ∈ recasedCatalog.tables, TellsQueries recasedCatalog table := by
  have htable : ∃ table ∈ recasedCatalog.tables, table.name = "Order" := by decide +kernel
  obtain ⟨table, ht, -⟩ := htable
  exact ⟨recased_isParsed, catalog_recased, table, ht,
    tellsQueries_of_catalog recased_isParsed catalog_recased ht⟩

/-- The queries by the key and through the index share their names, and the latter has no input. -/
theorem exists_query_lost : recased.IsParsed ∧ recased.catalog = .ok recasedCatalog ∧
    ∃ table ∈ recasedCatalog.tables, ∃ key ∈ table.queryKeys, ∃ key' ∈ table.queryKeys,
      key.required = ["userId"] ∧ key'.required = ["userID"] ∧
        queryInput table.name key.required = queryInput table.name key'.required ∧
        Naming.queryOperation table.name key.required = Naming.queryOperation table.name key'.required ∧
        ¬ HasInput recasedCatalog table key' := by
  have hkeys : ∃ table ∈ recasedCatalog.tables, ∃ key ∈ table.queryKeys, ∃ key' ∈ table.queryKeys,
      key.required = ["userId"] ∧ key'.required = ["userID"] ∧ table.standing? key' = some key := by
    decide +kernel
  obtain ⟨table, ht, key, hk, key', hk', hrequired, hrequired', hstands⟩ := hkeys
  have hc := Corpus.isSound_of_catalog recased_isParsed catalog_recased
  have hname : queryInput table.name key.required = queryInput table.name key'.required :=
    (queryInput_eq_iff_words hc ht hk hk').mpr (of_standing?_eq_some hstands).2
  refine ⟨recased_isParsed, catalog_recased, table, ht, key, hk, key', hk', hrequired, hrequired', hname,
    queryOperation_eq_iff.mpr hname, ?_⟩
  rintro ⟨d, hd, hn, hfields⟩
  obtain ⟨first, -, hfirst, d', hdecl, hn', hd'⟩ := exists_declared_input hc ht hk'
  rw [hstands] at hfirst
  cases hfirst
  rw [hd.eq ht hc hd' (hn'.trans hn.symm)] at hdecl
  rw [required_queryDecl hdecl, hrequired, hrequired'] at hfields
  exact absurd hfields (by decide)

end SchemaGen
