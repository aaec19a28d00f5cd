import SchemaGen.Proofs.Target.ModelFiles
import SchemaGen.Proofs.Target.TypeNames

/-!
# The targets describe the same types

The host models, the client models and the API schema come to a type by different ways: the models render
the types of each entity by itself, while the schema enters embedded types as it renders the entities that
embed them. Whatever the way, a type is told by its name, so that no two targets describe it differently.

Results:
1. `exists_describes`: the types of a target are those that the entities of the catalog bring.
2. `sameTypes_of_describes`: what the targets describe, compared.
3. `sameTypes_of_renderAll`: what the targets of a run describe.
-/

namespace SchemaGen

open Emission

variable {c : Catalog} {o : Options} {t : Target} {files : Files} {r r' : Registry}

/-- The targets that describe types. -/
def Target.typed : List Target := [.rust, .typescript, .graphql]

/-- The files of a target describe those types: its modules print what the entities bring, or its schema is
composed of them. -/
inductive Describes (o : Options) (c : Catalog) : Target → Files → List TypeDecl → Prop
  | models {t : Target} {files : Files} {decls : Entity → List TypeDecl} (ht : t ∈ Target.models)
      (h : Printed o c t decls files) : Describes o c t files (c.entityList.flatMap decls)
  | schema {ds : List Declaration} {enums defs : List ApiSchema.Definition}
      (h : ApiSchema.Composed o c ds enums defs) : Describes o c .graphql
        (NameMap.ofList [(ApiSchema.schemaFile, ApiSchema.schemaText o.generatedAt defs)])
        (Declaration.types ds)

/-- The types are brought by entities of the catalog. -/
def Brought (c : Catalog) (types : List TypeDecl) : Prop :=
  ∀ d ∈ types, ∃ e, c.entity? e.name = some e ∧ Brings e d

/-- What a schema declares is brought by the entities of the API, or by those that they embed. -/
theorem ApiSchema.brought_of_declarations (hc : c.IsSound) {ds : List Declaration}
    (h : ApiSchema.declarations c r = (.ok ds, r')) : Brought c (Declaration.types ds) := by
  have htold : ∀ e ∈ c.entityList.filter Entity.isApiVisible,
      Only (fun d => ∃ f, Told c f d) (Emit.fragment c .graphql e .apiSchemaEntity) := by
    intro e he
    have hentity := hc.entity?_of_mem (List.mem_filter.mp he).1
    exact (only_fragment hc hentity _).mono fun d hd => ⟨e, hd⟩
  intro d hd
  obtain ⟨_, htype⟩ := only_collect htold r ds r' h (.type d) (Declaration.mem_types_iff.mp hd)
  exact htype

/-- Every target that describes types does so when it renders. -/
theorem exists_describes (hc : c.IsSound) (ht : t ∈ Target.typed) (hr : r.IsFresh t)
    (h : t.render o c r = (.ok files, r')) : ∃ types, Describes o c t files types ∧ Brought c types := by
  have hmodels : t ∈ Target.models → ∃ types, Describes o c t files types ∧ Brought c types := by
    intro hm
    obtain ⟨decls, hprinted, hbrings⟩ := exists_printed hc hm hr h
    refine ⟨_, .models hm hprinted, fun d hd => ?_⟩
    obtain ⟨e, he, hd⟩ := List.mem_flatMap.mp hd
    exact ⟨e, hc.entity?_of_mem he, hbrings e he d hd⟩
  simp only [Target.typed, List.mem_cons, List.not_mem_nil, or_false] at ht
  rcases ht with rfl | rfl | rfl
  · exact hmodels (by decide)
  · exact hmodels (by decide)
  · obtain ⟨defs, r₁, hdefs, hfiles⟩ := Emit.bind_eq_ok.mp (Target.generate_of_render h)
    cases hfiles
    obtain ⟨ds, enums, hcomposed, hdeclared⟩ := ApiSchema.exists_composed hc hr hdefs
    exact ⟨_, .schema hcomposed, ApiSchema.brought_of_declarations hc (Prod.ext hdeclared rfl)⟩

/-- The types of the targets, compared: what two of them describe under one name is one type, with the same
fields in the same order; both models describe the same types; and the schema describes all of them that an
entity of the API brings. -/
structure SameTypes (c : Catalog) (types : Target → List TypeDecl) : Prop where
  same : ∀ t ∈ Target.typed, ∀ u ∈ Target.typed, ∀ d ∈ types t, ∀ d' ∈ types u, d.name = d'.name → d = d'
  models : ∀ d, d ∈ types .rust ↔ d ∈ types .typescript
  schema : ∀ e, ApiSchema.InApi c e → ∀ d ∈ types .rust, Belongs e d → d ∈ types .graphql

/-- Under the name of a type that an entity brings, the models describe one. -/
theorem exists_of_describes_models (ht : t ∈ Target.models) {types : List TypeDecl}
    (h : Describes o c t files types) {n : String} :
    n ∈ types.map TypeDecl.name ↔ ∃ e ∈ c.entityList, n ∈ modelNames e := by
  cases h with
  | schema => exact absurd ht (by decide)
  | @models _ _ decls _ hprinted =>
    rw [List.map_flatMap, List.mem_flatMap]
    constructor
    · rintro ⟨e, he, hn⟩
      exact ⟨e, he, ((hprinted.artifacts e he).names n).mp hn⟩
    · rintro ⟨e, he, hn⟩
      exact ⟨e, he, ((hprinted.artifacts e he).names n).mpr hn⟩

/-- Under the name of a type that an entity of the API brings, the schema describes one. -/
theorem exists_of_describes_schema (hc : c.IsSound) {types : List TypeDecl}
    (h : Describes o c .graphql files types) {e : Entity} (he : ApiSchema.InApi c e) {n : String}
    (hn : n = e.name ∨ n ∈ Corpus.generatedNames e) : n ∈ types.map TypeDecl.name := by
  cases h with
  | models ht => exact absurd ht (by decide)
  | schema hcomposed =>
    obtain ⟨r', hcollected⟩ := hcomposed.collected
    have hmark := (ApiSchema.hasType_of_inApi hc hcollected (.refl _) he).1 n hn
    rcases (hcollected.types.marks n).mp hmark with hempty | hn
    · cases hempty
    · rw [List.map_map] at hn
      exact hn

theorem sameTypes_of_describes (hc : c.IsSound) {files : Target → Files} {types : Target → List TypeDecl}
    (h : ∀ t ∈ Target.typed, Describes o c t (files t) (types t) ∧ Brought c (types t)) :
    SameTypes c types := by
  have hsame : ∀ t ∈ Target.typed, ∀ u ∈ Target.typed, ∀ d ∈ types t, ∀ d' ∈ types u,
      d.name = d'.name → d = d' := by
    intro t ht u hu d hd d' hd' hn
    obtain ⟨e, he, hbrings⟩ := (h t ht).2 d hd
    obtain ⟨f, hf, hbrings'⟩ := (h u hu).2 d' hd'
    exact eq_of_brings hc he hf hbrings hbrings' hn
  have hof : ∀ t ∈ Target.typed, ∀ u ∈ Target.typed, ∀ d ∈ types t, d.name ∈ (types u).map TypeDecl.name →
      d ∈ types u := by
    intro t ht u hu d hd hn
    obtain ⟨d', hd', hn⟩ := List.mem_map.mp hn
    rw [hsame t ht u hu d hd d' hd' hn.symm]
    exact hd'
  have hmodels : ∀ t ∈ Target.models, ∀ u ∈ Target.models, ∀ d ∈ types t, d ∈ types u := by
    intro t ht u hu d hd
    have htyped : ∀ t ∈ Target.models, t ∈ Target.typed := by decide
    refine hof t (htyped t ht) u (htyped u hu) d hd ?_
    rw [exists_of_describes_models hu (h u (htyped u hu)).1]
    exact (exists_of_describes_models ht (h t (htyped t ht)).1).mp (List.mem_map_of_mem hd)
  refine ⟨hsame, fun d => ⟨?_, ?_⟩, fun e he d hd hb => ?_⟩
  · exact hmodels .rust (by decide) .typescript (by decide) d
  · exact hmodels .typescript (by decide) .rust (by decide) d
  · refine hof .rust (by decide) .graphql (by decide) d hd ?_
    exact exists_of_describes_schema hc (h .graphql (by decide)).1 he (belongs_name hb)

/-- The targets of a run describe the same types. -/
theorem sameTypes_of_renderAll {corpus : Corpus} (hp : corpus.IsParsed) (h : corpus.catalog = .ok c)
    {s : Settings} {staged : List StagedTarget}
    (hrun : Run.renderAll s o c Target.all .empty = .ok staged) :
    ∃ files : Target → Files, staged = Target.all.map (fun t => ⟨s.outputDir t, files t⟩) ∧
      ∃ types : Target → List TypeDecl,
        (∀ t ∈ Target.typed, Describes o c t (files t) (types t)) ∧ SameTypes c types := by
  have hc := Corpus.isSound_of_catalog hp h
  obtain ⟨files, hstaged, hfiles⟩ := Run.renderAll_isFresh hrun
  have hdescribes : ∀ t, ∃ types, t ∈ Target.typed → Describes o c t (files t) types ∧ Brought c types := by
    intro t
    by_cases ht : t ∈ Target.typed
    · obtain ⟨r, r', hr, hrender⟩ := hfiles t
      obtain ⟨types, htypes⟩ := exists_describes hc ht hr hrender
      exact ⟨types, fun _ => htypes⟩
    · exact ⟨[], fun hm => absurd hm ht⟩
  choose types htypes using hdescribes
  exact ⟨files, hstaged, types, fun t ht => (htypes t ht).1, sameTypes_of_describes hc htypes⟩

theorem sameTypes_of_renderAll_ledger : ledger.IsParsed ∧ ledger.catalog = .ok ledgerCatalog ∧
    ∀ s o, ∃ staged, Run.renderAll s o ledgerCatalog Target.all .empty = .ok staged ∧
      ∃ files : Target → Files, staged = Target.all.map (fun t => ⟨s.outputDir t, files t⟩) ∧
        ∃ types : Target → List TypeDecl,
          (∀ t ∈ Target.typed, Describes o ledgerCatalog t (files t) (types t)) ∧
            SameTypes ledgerCatalog types := by
  have hhost : ∀ docs, HostModel.check docs ledgerCatalog = .ok () := by decide +kernel
  have hapi : ApiSchema.check ledgerCatalog = .ok () := by decide +kernel
  refine ⟨ledger_isParsed, catalog_ledger, fun s o => ?_⟩
  obtain ⟨staged, hrun⟩ :=
    (Run.exists_renderAll_iff (Corpus.isSound_of_catalog ledger_isParsed catalog_ledger)).mpr
      ⟨hhost o.docs, hapi⟩
  exact ⟨staged, hrun, sameTypes_of_renderAll ledger_isParsed catalog_ledger hrun⟩

end SchemaGen
