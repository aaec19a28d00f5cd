import SchemaGen.Proofs.Target.ResolverInputs
import SchemaGen.Proofs.Target.Resolvers

/-!
# Resolvers, inputs and storage together

What a table gives rise to is emitted in different places: the fragments declare the inputs of its
operations, the API description holds their resolvers, and the storage description the keys of the table.
They agree: the resolver of an operation takes from the input what its type declares, and a query asks the
table by a key that is stored.

Results:
1. `isEmitted_iff`: the operations that are emitted for a table.
2. `isDeclared_of_brings`: what the fragments of a table declare.
3. `eq_resource_of_answers`: the resource that answers an operation.
4. `exists_matching_resolver`: every operation has a resolver that matches its input and the storage.
-/

namespace SchemaGen

open Emission

variable {c : Catalog} {o : Options} {table : Table} {op : Operation} {d : TypeDecl}

/-! ## What is emitted for a table -/

/-- Some fragment of the table yields the operation, for some target. -/
def IsEmitted (c : Catalog) (table : Table) (op : Operation) : Prop :=
  ∃ t g r ds r', Emit.fragment c t (.table table) g r = (.ok ds, r') ∧ op ∈ Declaration.operations ds

theorem isEmitted_iff (hc : c.IsSound) (ht : table ∈ c.tables) :
    IsEmitted c table op ↔ op ∈ candidates table := by
  constructor
  · rintro ⟨t, g, r, ds, r', hrun, hop⟩
    obtain ⟨_, he, hcand⟩ := only_fragment (e := .table table) hc (hc.entity?_of_mem_tables ht) g r ds r' hrun _
      (Declaration.mem_operations_iff.mp hop)
    cases he
    exact hcand
  · intro hop
    obtain ⟨ds, r', hrun, hops, -⟩ := operations_yields c .infra table .empty [] seen_empty
    refine ⟨.infra, .operations, .empty, ds, r', hrun, ?_⟩
    have hsame : ∀ a ∈ sortedCandidates table, ∀ b ∈ sortedCandidates table, a.name = b.name → a = b :=
      fun a ha b hb => candidates_inj (mem_sortedCandidates.mp ha) (mem_sortedCandidates.mp hb)
    rw [hops]
    exact (mem_firstNamed hsame).mpr ⟨mem_sortedCandidates.mpr hop, List.not_mem_nil⟩

/-- The type is declared for the table: by the fragments that render the types of the table, where its name
is free, while no fragment declares another type of that name. -/
structure IsDeclared (c : Catalog) (table : Table) (d : TypeDecl) : Prop where
  declares : ∀ g ∈ [Fragment.modelArtifact, .apiSchemaEntity], ∀ t r, r.hasType t d.name = false →
    (Emit.fragment c t (.table table) g).Ends r fun ds _ => .type d ∈ ds
  only : ∀ e, c.entity? e.name = some e → ∀ t g r ds r', Emit.fragment c t e g r = (.ok ds, r') →
    ∀ d', .type d' ∈ ds → d'.name = d.name → d' = d

theorem isDeclared_of_brings (hc : c.IsSound) (ht : table ∈ c.tables) (h : Brings (.table table) d)
    (hn : d.name ∈ Corpus.generatedNames (.table table)) : IsDeclared c table d := by
  have he : c.entity? (Entity.table table).name = some (.table table) := hc.entity?_of_mem_tables ht
  have honly : ∀ e, c.entity? e.name = some e → ∀ t g r ds r', Emit.fragment c t e g r = (.ok ds, r') →
      ∀ d', .type d' ∈ ds → d'.name = d.name → d' = d := by
    intro e hentity t g r ds r' hrun d' hd' hname
    obtain ⟨f, hf, hbrings⟩ := only_fragment hc hentity g r ds r' hrun _ hd'
    exact eq_of_brings hc hf he hbrings h hname
  -- a name that is marked in the end and was free is declared, and by no other type
  have hfound : ∀ {P t g r types ops r₁}, (Emit.fragment c t (.table table) g).Ends r
      (fun ds _ => ds = types ++ ops ∧ TypeStep t P r types r₁ ∧ r₁.hasType t d.name = true) →
        r.hasType t d.name = false → (Emit.fragment c t (.table table) g).Ends r fun ds _ => .type d ∈ ds := by
    rintro P t g r types ops r₁ ⟨ds, r', hrun, rfl, hstep, hmark⟩ hfree
    refine ⟨_, r', hrun, ?_⟩
    rcases (hstep.marks d.name).mp hmark with hmarked | hname
    · rw [hfree] at hmarked
      cases hmarked
    · obtain ⟨other, hother, hname⟩ := List.mem_map.mp hname
      obtain ⟨d', rfl, -⟩ := hstep.declared other hother
      rw [← honly _ he t g r _ r' hrun d' (List.mem_append_left _ hother) hname]
      exact List.mem_append_left _ hother
  refine ⟨fun g hg t r hfree => ?_, honly⟩
  simp only [List.mem_cons, List.not_mem_nil, or_false] at hg
  rcases hg with rfl | rfl
  · obtain ⟨ds, r', hrun, hdeclares⟩ := modelArtifact_declares (t := t) hc he r
    have hmark := hdeclares.marks d.name (mem_modelNames_iff.mp (List.mem_cons_of_mem _ hn))
    exact hfound ⟨ds, r', hrun, (List.append_nil ds).symm, hdeclares.step, hmark⟩ hfree
  · obtain ⟨ds, r', hrun, types, ops, r₁, hds, hentered, -⟩ := apiSchemaEntity_ends (t := t) hc he r
    exact hfound ⟨ds, r', hrun, hds, hentered.step, hentered.own d.name (.inr hn)⟩ hfree

/-! ## The resource of an operation -/

namespace Infra

theorem exists_of_mem_resolversOf {ops : List Operation} {resolver : Resolver}
    (h : resolver ∈ resolversOf table ops) :
    ∃ op ∈ ops, Infra.resolver table op = .ok resolver ∧ resolver.operation = op := by
  obtain ⟨op, hop, hresolver⟩ := List.mem_filterMap.mp h
  cases hmade : Infra.resolver table op with
  | error fault =>
    rw [hmade] at hresolver
    cases hresolver
  | ok other =>
    rw [hmade] at hresolver
    cases hresolver
    obtain ⟨request, -, rfl⟩ := map_eq_ok.mp hmade
    exact ⟨op, hop, hmade, rfl⟩

theorem resolver_of_request {q : Request} (h : request table op = .ok q) :
    Infra.resolver table op = .ok ⟨op, Naming.dataSource table.name, q⟩ := by
  unfold Infra.resolver
  rw [h]
  rfl

/-- An update that is requested takes at least one key. -/
theorem ne_update_of_request {q : Request} (h : request table op = .ok q) : q ≠ .update [] := by
  rcases exists_of_request h with ⟨verb, rfl⟩ | ⟨key, rfl⟩
  · rcases itemRequest_cases verb table with he | he | he <;> simp [he, Table.primaryKey]
  · exact queryRequest_ne_update

/-- The code in the resource of a resolver is the text of the script of its request. -/
theorem code_of_resolver {resolver : Resolver} (h : Infra.resolver table op = .ok resolver) :
    resolver.resource.textAt? ["Properties", "Code"] =
      some (codeOf resolver.request.script resolver.request.data) := by
  obtain ⟨q, hq, rfl⟩ := map_eq_ok.mp h
  show some q.code = some (codeOf q.script q.data)
  rw [code_eq (ne_update_of_request hq)]

/-- A resource that answers an operation which its table keeps is the resolver of that operation. -/
theorem eq_resource_of_answers (hc : c.IsSound) (ht : table ∈ c.tables) (hop : op ∈ kept c table)
    {resolver : Resolver} (h : Infra.resolver table op = .ok resolver) {m : String × Json}
    (hm : m ∈ resources o c) (hb : (binding? m.2).map Binding.rootField = some op.rootField) :
    m.2 = resolver.resource := by
  obtain ⟨b, hbinding, hfield⟩ := Option.map_eq_some_iff.mp hb
  rcases List.mem_append.mp (mem_of_mem_resources hm) with hm | hm
  · obtain ⟨other, ho, hmember⟩ := List.mem_flatMap.mp (List.mem_reverse.mp hm)
    rcases List.mem_cons.mp hmember with rfl | hmember
    · cases hbinding
    · obtain ⟨resolver', hres, rfl⟩ := List.mem_map.mp hmember
      obtain ⟨op', hop', hmade, hoperation⟩ := exists_of_mem_resolversOf hres
      rw [binding?_resource] at hbinding
      cases hbinding
      rw [hoperation] at hfield
      -- operations that are kept are told by their names, and their tables by the operations
      have hsame : op' = op := List.inj_on_of_nodup_map (nodup_names_kept hc)
        (List.mem_flatMap.mpr ⟨other, ho, hop'⟩) (List.mem_flatMap.mpr ⟨table, ht, hop⟩)
        (congrArg Prod.snd hfield)
      subst hsame
      have hname : other.name = table.name :=
        (entity_of_mem_candidates (mem_kept_iff.mp hop').1).symm.trans
          (entity_of_mem_candidates (mem_kept_iff.mp hop).1)
      rw [List.inj_on_of_nodup_map (nodup_names_tables hc) ho ht hname, h] at hmade
      cases hmade
      rfl
  · simp only [fixedResources, List.mem_cons, List.not_mem_nil, or_false] at hm
    rcases hm with rfl | rfl <;> cases hbinding

/-- Wherever the infrastructure is rendered, what answers the operation in the description of the API is the
resolver, if its table keeps the operation. -/
def IsAnswered (c : Catalog) (table : Table) (op : Operation) (resolver : Resolver) : Prop :=
  ∀ o r, r.IsFresh .infra → (Infra.generate o c).Ends r fun files _ =>
    ∃ (storage description : Json) (resources : List (String × Json)),
      files = NameMap.ofList [(storageFile, storage.document), (apiFile, description.document)] ∧
        description.member? "Resources" = some (.object resources) ∧
        (op ∈ kept c table → ∀ m ∈ resources,
          (binding? m.2).map Binding.rootField = some op.rootField → m.2 = resolver.resource)

theorem isAnswered_of_resolver (hc : c.IsSound) (ht : table ∈ c.tables) {resolver : Resolver}
    (h : Infra.resolver table op = .ok resolver) : IsAnswered c table op resolver := by
  intro o r hr
  refine (generate_ends hc hr).mono fun files r' ⟨storage, description, hfiles, hresources⟩ => ?_
  exact ⟨storage, description, _, hfiles, hresources, fun hop _ hm hb => eq_resource_of_answers hc ht hop h hm hb⟩

/-! ## Resolvers that match -/

/-- The resolver of an operation matches the type that the operation takes, and the storage of the table:
the type is declared for the table; the code in the resource of the resolver is the text of a script, with
what brings the library and the context before it and what answers after it, and this script reads required
fields of the type in any case and optional ones where they are given; and wherever the infrastructure is
rendered, a query asks the table by a key that the storage description holds, and what answers the operation
in the API description is this resolver. -/
structure Matches (c : Catalog) (table : Table) (op : Operation) (d : TypeDecl) (resolver : Resolver) :
    Prop where
  name : d.name = op.inputType
  declared : IsDeclared c table d
  made : Infra.resolver table op = .ok resolver
  code : resolver.resource.textAt? ["Properties", "Code"] =
    some (codeOf resolver.request.script resolver.request.data)
  fits : Fits resolver.request.script d
  described : ∀ o r, r.IsFresh .infra → (Infra.generate o c).Ends r fun files _ =>
    ∃ (storage description : Json) (resources : List (String × Json)),
      files = NameMap.ofList [(storageFile, storage.document), (apiFile, description.document)] ∧
        description.member? "Resources" = some (.object resources) ∧
        (op.kind = .query → Asks storage table resolver.request.script) ∧
        (op ∈ kept c table → ∀ m ∈ resources,
          (binding? m.2).map Binding.rootField = some op.rootField → m.2 = resolver.resource)

/-- Every operation that is emitted for a table has a resolver that matches. -/
theorem exists_matching_resolver {corpus : Corpus} (hp : corpus.IsParsed) (h : corpus.catalog = .ok c)
    (ht : table ∈ c.tables) (hop : IsEmitted c table op) : ∃ d resolver, Matches c table op d resolver := by
  have hc := Corpus.isSound_of_catalog hp h
  have hcand := (isEmitted_iff hc ht).mp hop
  have he := hc.entity?_of_mem_tables ht
  obtain ⟨d, hbrings, hname, request, hrequest, hfits, hasks⟩ :=
    exists_input (fun _ hk => hc.attribute?_of_key he hk) hcand
  have hresolver := resolver_of_request hrequest
  have hgenerated : d.name ∈ Corpus.generatedNames (.table table) := by
    rw [hname]
    exact (types_of_mem_candidates hcand).1
  refine ⟨d, _, hname, isDeclared_of_brings hc ht hbrings hgenerated, hresolver, code_of_resolver hresolver,
    hfits, ?_⟩
  intro o r hr
  refine (generate_stores hc hr).mono fun files r' ⟨storage, description, hfiles, hstores, hresources⟩ => ?_
  refine ⟨storage, description, _, hfiles, hresources, fun hquery => hasks hquery storage (hstores table ht), ?_⟩
  intro hkept m hm hb
  exact eq_resource_of_answers hc ht hkept hresolver hm hb

/-- The operations of a table whose indexes share an attribute with its key and ask for two. -/
theorem exists_matching_resolver_ledger : ledger.IsParsed ∧ ledger.catalog = .ok ledgerCatalog ∧
    ∃ table ∈ ledgerCatalog.tables, table.queryKeys.map QueryKey.required = [["id"], ["id"], ["day"]] ∧
      ∀ op ∈ candidates table, IsEmitted ledgerCatalog table op ∧
        ∃ d resolver, Matches ledgerCatalog table op d resolver := by
  have htable : ∃ table ∈ ledgerCatalog.tables,
      table.queryKeys.map QueryKey.required = [["id"], ["id"], ["day"]] := by decide +kernel
  obtain ⟨table, ht, hkeys⟩ := htable
  refine ⟨ledger_isParsed, catalog_ledger, table, ht, hkeys, fun op hop => ?_⟩
  have hemitted := (isEmitted_iff (Corpus.isSound_of_catalog ledger_isParsed catalog_ledger) ht).mpr hop
  exact ⟨hemitted, exists_matching_resolver ledger_isParsed catalog_ledger ht hemitted⟩

end Infra

end SchemaGen
