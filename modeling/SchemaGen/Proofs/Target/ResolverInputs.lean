import SchemaGen.Proofs.Emission.FirstKeys
import SchemaGen.Proofs.Target.Rendering
import SchemaGen.Proofs.Target.ResolverCode

/-!
# What resolvers read

A resolver reads the keys of its request from the input of its operation, and a query through an index with
a sort attribute also reads that one, where it is given. Which query key a resolver answers is found by the
name of its operation, and which one the input describes by the name of the input and the order of emission;
both are the first key of that name. What the script of the request reads then fits the fields of the input
(`Fits`), and a query asks its table by a key that the table is stored with (`Asks`).

Results:
1. `queryKey?_name`: the key that a resolver answers is the first one of its name.
2. `fields_queryDecl`, `fields_deleteDecl`: which fields are required.
3. `fits_queryRequest`, `asks_queryRequest`: what a query reads and how it asks, key by key.
4. `exists_input`: every operation takes an input that its request fits.
-/

namespace SchemaGen

open Emission Registry

variable {c : Catalog} {o : Options} {t : Target} {table : Table} {op : Operation} {key : QueryKey}
  {d : TypeDecl} {r r' : Registry}

namespace Infra

/-- A script reads required fields of an input in any case, and optional ones where they are given. -/
structure Fits (script : List Stmt) (d : TypeDecl) : Prop where
  required : ∀ n ∈ reads script, ∃ f ∈ d.fields, f.name = n ∧ f.required = true
  optional : ∀ n ∈ readsIfGiven script, ∃ f ∈ d.fields, f.name = n ∧ f.required = false

/-- How the script of a query asks a stored table: by the attributes of its key, through an index by those
of the key of that index, or else, for the sort attribute alone, by scanning it. -/
inductive Asks (storage : Json) (table : Table) (script : List Stmt) : Prop
  | byKey {key : StoredKey} {names : List String} (stored : storedPrimary? storage table.name = some key)
      (call : calls script = [("query", none)])
      (partition : names = [key.hash] ∨ ∃ range ∈ key.range, names = [key.hash, range])
      (on : conditions script = names.map Expr.equal) (further : conditionsIfGiven script = [])
  | byIndex {index : String} {key : StoredKey} (stored : (index, key) ∈ storedIndexes storage table.name)
      (call : calls script = [("query", some index)]) (on : conditions script = [Expr.equal key.hash])
      (further : conditionsIfGiven script = key.range.toList.map Expr.equal)
  | scanning {sort : String} (sorts : sort ∈ table.sort) (other : sort ≠ table.partition)
      (call : calls script = [("scan", none)]) (on : conditions script = [Expr.equal sort])
      (further : conditionsIfGiven script = [])

/-! ## Keys -/

/-- The key that a resolver answers is the first one with the input of its operation. -/
theorem queryKey?_name (key : QueryKey) : queryKey? table (queryOperation table key).name =
    table.firstKey? (Naming.queryInput table.name key.required) := by
  unfold queryKey? Table.firstKey?
  congr 1
  funext other
  rw [Bool.eq_iff_iff, beq_iff_eq, beq_iff_eq]
  exact Naming.queryOperation_eq_iff

theorem mapM_keyField {required : Bool} {names : List String} {fields : List Field}
    (h : names.mapM (keyField table required) = .ok fields) :
    fields.map (fun f => (f.name, f.required)) = names.map fun n => (n, required) := by
  induction names generalizing fields with
  | nil =>
    cases h
    rfl
  | cons n rest ih =>
    rw [List.mapM_cons] at h
    obtain ⟨field, hfield, h⟩ := bind_eq_ok.mp h
    obtain ⟨more, hmore, h⟩ := bind_eq_ok.mp h
    cases h
    obtain ⟨a, -, rfl, rfl⟩ := keyField_eq_ok hfield
    rw [List.map_cons, List.map_cons, ih hmore]
    rfl

/-- The input of a query has the attributes of its key as fields: those that it requires, then the one that
may narrow it. -/
theorem fields_queryDecl (h : queryDecl table key = .ok d) :
    d.fields.map (fun f => (f.name, f.required)) =
      key.required.map (fun n => (n, true)) ++ key.optional.toList.map fun n => (n, false) := by
  obtain ⟨required, hrequired, h⟩ := bind_eq_ok.mp h
  obtain ⟨optional, hoptional, h⟩ := bind_eq_ok.mp h
  cases h
  rw [List.map_append, mapM_keyField hrequired, mapM_keyField hoptional]

theorem fields_deleteDecl (h : deleteDecl table = .ok d) :
    d.fields.map (fun f => (f.name, f.required)) = table.primaryKey.map fun n => (n, true) := by
  obtain ⟨fields, hfields, h⟩ := bind_eq_ok.mp h
  cases h
  exact mapM_keyField hfields

/-- A field is found by what it is made of. -/
theorem exists_field {fields : List Field} {n : String} {required : Bool}
    (h : (n, required) ∈ fields.map fun f => (f.name, f.required)) :
    ∃ f ∈ fields, f.name = n ∧ f.required = required := by
  obtain ⟨f, hf, he⟩ := List.mem_map.mp h
  exact ⟨f, hf, congrArg Prod.fst he, congrArg Prod.snd he⟩

/-- A table is queried by its partition, by its sort attribute, by both, or through an index. -/
theorem mem_queryKeys_iff : key ∈ table.queryKeys ↔
    key = ⟨[table.partition], none, none⟩ ∨
      (∃ sort ∈ table.sort, key = ⟨[sort], none, none⟩ ∨ key = ⟨[table.partition, sort], none, none⟩) ∨
        ∃ i ∈ table.indexes, key = ⟨[i.partition], i.sort, some i.name⟩ := by
  unfold Table.queryKeys
  rw [List.mem_cons, List.mem_append, List.mem_map]
  cases table.sort <;> simp [eq_comm]

/-! ## Requests -/

/-- What starts with the partition of the table, or goes through an index, is queried. -/
theorem queryRequest_eq_query (h : key.index = none → key.required.head? = some table.partition) :
    queryRequest table key = .query key.required key.optional key.index := by
  unfold queryRequest
  split
  · next hscan =>
    simp only [Bool.and_eq_true, Option.isNone_iff_eq_none, bne_iff_ne] at hscan
    exact absurd (h hscan.1) hscan.2
  · rfl

theorem queryRequest_ne_update {keys : List String} : queryRequest table key ≠ .update keys := by
  unfold queryRequest
  split <;> simp

/-- The request for a key takes what the key requires, and what may narrow it where it is given. -/
theorem fits_queryRequest (h : queryDecl table key = .ok d) : Fits (queryRequest table key).script d := by
  have hfields := fields_queryDecl h
  have hrequired : ∀ n ∈ key.required, ∃ f ∈ d.fields, f.name = n ∧ f.required = true := by
    intro n hn
    refine exists_field ?_
    rw [hfields]
    exact List.mem_append_left _ (List.mem_map_of_mem hn)
  unfold queryRequest
  split
  · refine ⟨?_, ?_⟩
    · rw [reads_script]
      exact hrequired
    · rw [readsIfGiven_script]
      exact fun _ hn => absurd hn List.not_mem_nil
  · refine ⟨?_, ?_⟩
    · rw [reads_script]
      exact hrequired
    · rw [readsIfGiven_script]
      intro n hn
      refine exists_field ?_
      rw [hfields]
      exact List.mem_append_right _ (List.mem_map_of_mem hn)

theorem asks_queryRequest {storage : Json} (hs : StoresKeys storage table) (hkey : key ∈ table.queryKeys) :
    Asks storage table (queryRequest table key).script := by
  have hprimary : ∀ names, (names = [table.partition] ∨ ∃ range ∈ table.sort, names = [table.partition, range]) →
      Asks storage table (Request.query names none none).script := fun names hnames =>
    .byKey hs.primary (calls_query _ _ _) hnames (conditions_query _ _ _) (conditionsIfGiven_query _ _ _)
  rcases mem_queryKeys_iff.mp hkey with rfl | ⟨sort, hsort, rfl | rfl⟩ | ⟨i, hi, rfl⟩
  · rw [queryRequest_eq_query fun _ => rfl]
    exact hprimary _ (.inl rfl)
  · -- the sort attribute alone is the key of nothing, unless it is the partition as well
    by_cases he : sort = table.partition
    · subst he
      rw [queryRequest_eq_query fun _ => rfl]
      exact hprimary _ (.inl rfl)
    · have hscan : queryRequest table ⟨[sort], none, none⟩ = .scan [sort] :=
        (queryRequest_scan_iff table _ _).mpr ⟨rfl, rfl, fun h => he (Option.some.inj h)⟩
      rw [hscan]
      exact .scanning hsort he rfl (conditions_scan _) rfl
  · rw [queryRequest_eq_query fun _ => rfl]
    exact hprimary _ (.inr ⟨sort, hsort, rfl⟩)
  · rw [queryRequest_eq_query fun h => by cases h]
    exact .byIndex ((hs.indexes _ _).mpr ⟨i, hi, rfl, rfl⟩) (calls_query _ _ _) (conditions_query _ _ _)
      (conditionsIfGiven_query _ _ _)

/-- The request that the resolver of a mutation makes. -/
def itemRequest (verb : String) (table : Table) : Request :=
  if verb = "create" then .put table.primaryKey
  else if verb = "update" then .update table.primaryKey
  else .remove table.primaryKey

theorem itemRequest_cases (verb : String) (table : Table) :
    itemRequest verb table = .put table.primaryKey ∨ itemRequest verb table = .update table.primaryKey ∨
      itemRequest verb table = .remove table.primaryKey := by
  unfold itemRequest
  split
  · exact .inl rfl
  split
  · exact .inr (.inl rfl)
  · exact .inr (.inr rfl)

/-- A request is that of a mutation or that for a key. -/
theorem exists_of_request {q : Request} (h : request table op = .ok q) :
    (∃ verb, q = itemRequest verb table) ∨ ∃ key, q = queryRequest table key := by
  unfold request at h
  split at h
  · exact .inl ⟨"create", (Except.ok.inj h).symm⟩
  split at h
  · exact .inl ⟨"update", (Except.ok.inj h).symm⟩
  split at h
  · exact .inl ⟨"delete", (Except.ok.inj h).symm⟩
  split at h
  · exact .inr ⟨_, (Except.ok.inj h).symm⟩
  · cases h

/-- The requests of mutations take the attributes of the primary key. -/
theorem fits_itemRequest {verb : String}
    (h : ∀ n ∈ table.primaryKey, ∃ f ∈ d.fields, f.name = n ∧ f.required = true) :
    Fits (itemRequest verb table).script d := by
  constructor
  · rw [reads_script]
    rcases itemRequest_cases verb table with he | he | he <;> rw [he] <;> exact h
  · rw [readsIfGiven_script]
    rcases itemRequest_cases verb table with he | he | he <;> rw [he] <;>
      exact fun _ hn => absurd hn List.not_mem_nil

theorem request_itemOperation {verb input : String} (hv : verb ∈ Naming.verbs) :
    request table (itemOperation table verb input) = .ok (itemRequest verb table) := by
  have hverb : ∀ other ∈ Naming.verbs, verb ≠ other →
      ((itemOperation table verb input).name == Naming.mutation other table.name) = false := by
    intro other ho hne
    exact beq_eq_false_iff_ne.mpr fun he => hne (Naming.mutation_inj hv ho he).1
  have hself : ((itemOperation table verb input).name == Naming.mutation verb table.name) = true :=
    beq_self_eq_true _
  unfold request itemRequest
  simp only [Naming.verbs, List.mem_cons, List.not_mem_nil, or_false] at hv
  rcases hv with rfl | rfl | rfl
  · rw [if_pos hself]
    rfl
  · rw [if_neg (by simp [hverb "create" (by decide) (by decide)]), if_pos hself]
    rfl
  · rw [if_neg (by simp [hverb "create" (by decide) (by decide)]),
      if_neg (by simp [hverb "update" (by decide) (by decide)]), if_pos hself]
    rfl

theorem request_queryOperation {first : QueryKey}
    (h : table.firstKey? (Naming.queryInput table.name key.required) = some first) :
    request table (queryOperation table key) = .ok (queryRequest table first) := by
  have hverb : ∀ verb ∈ Naming.verbs,
      ((queryOperation table key).name == Naming.mutation verb table.name) = false := fun verb hv =>
    beq_eq_false_iff_ne.mpr (Naming.queryOperation_ne_mutation hv)
  unfold request
  rw [hverb "create" (by decide), hverb "update" (by decide), hverb "delete" (by decide), queryKey?_name, h]
  rfl

/-- The field of an attribute, under the flag that it is given. -/
theorem mem_fields_of_attribute {k : String} {a : Attribute} (h : table.attribute? k = some a)
    (required : Attribute → Bool) : (k, required a) ∈
      (table.attributes.map fun a => Field.ofAttribute a (required a)).map fun f => (f.name, f.required) := by
  obtain ⟨hmem, hname⟩ := of_attribute?_eq_some h
  rw [List.map_map]
  exact List.mem_map.mpr ⟨a, hmem, Prod.ext hname rfl⟩

/-- The inputs of mutations have the attributes of the primary key as required fields. -/
theorem exists_itemInput (hk : ∀ k ∈ table.keyAttributes, ∃ a, table.attribute? k = some a) {verb : String}
    (hv : verb ∈ Naming.verbs) : ∃ d ∈ ownDecls (.table table), d.name = itemInput verb table.name ∧
      Fits (itemRequest verb table).script d := by
  have hkeys : ∀ k ∈ table.primaryKey, ∃ a, table.attribute? k = some a ∧
      table.primaryKey.contains a.name = true := by
    intro k hkey
    obtain ⟨a, ha⟩ := hk k (table.mem_keyAttributes k |>.mpr (.inl hkey))
    refine ⟨a, ha, ?_⟩
    rw [(of_attribute?_eq_some ha).2]
    exact List.contains_iff_mem.mpr hkey
  simp only [Naming.verbs, List.mem_cons, List.not_mem_nil, or_false] at hv
  rcases hv with rfl | rfl | rfl
  · refine ⟨createDecl table, by simp [ownDecls], rfl, fits_itemRequest fun n hn => ?_⟩
    obtain ⟨a, ha, hkey⟩ := hkeys n hn
    have hfield := mem_fields_of_attribute ha fun a => a.required || table.primaryKey.contains a.name
    rw [hkey, Bool.or_true] at hfield
    exact exists_field hfield
  · refine ⟨updateDecl table, by simp [ownDecls], rfl, fits_itemRequest fun n hn => ?_⟩
    obtain ⟨a, ha, hkey⟩ := hkeys n hn
    have hfield := mem_fields_of_attribute ha fun a => table.primaryKey.contains a.name
    rw [hkey] at hfield
    exact exists_field hfield
  · obtain ⟨d, hd⟩ := exists_deleteDecl hk
    refine ⟨d, mem_ownDecls_table.mpr (by simp [hd]), (deleteDecl_eq_ok hd).1,
      fits_itemRequest fun n hn => exists_field ?_⟩
    rw [fields_deleteDecl hd]
    exact List.mem_map_of_mem hn

/-- Every operation of a table takes an input that the table brings, and its resolver makes a request whose
script reads that input; the script of a query asks the table as it is stored. -/
theorem exists_input (hk : ∀ k ∈ table.keyAttributes, ∃ a, table.attribute? k = some a)
    (h : op ∈ candidates table) : ∃ d, Brings (.table table) d ∧ d.name = op.inputType ∧
      ∃ q, request table op = .ok q ∧ Fits q.script d ∧
        (op.kind = .query → ∀ storage, StoresKeys storage table → Asks storage table q.script) := by
  rcases mem_candidates_iff.mp h with ⟨verb, hv, rfl⟩ | ⟨key, hkey, rfl⟩
  · obtain ⟨d, hd, hname, hfits⟩ := exists_itemInput hk hv
    exact ⟨d, .inl hd, hname, _, request_itemOperation hv, hfits, fun hq => by cases hq⟩
  · obtain ⟨first, hfirst⟩ := exists_firstKey? hkey
    obtain ⟨hmem, hname⟩ := of_firstKey?_eq_some hfirst
    obtain ⟨d, hd⟩ := exists_queryDecl hk hmem
    have hdname : d.name = Naming.queryInput table.name key.required := (queryDecl_eq_ok hd).1.trans hname
    exact ⟨d, .inr ⟨table, rfl, first, by rw [hdname, hfirst], hd⟩, hdname, _,
      request_queryOperation hfirst, fits_queryRequest hd, fun _ storage hs => asks_queryRequest hs hmem⟩

end Infra

end SchemaGen
