import SchemaGen.Proofs.Emission.Embedded

/-!
# Fragments of one entity

In a sound catalog every fragment of an entity can be rendered. The fragments that declare types
declare types of the entity and of those it embeds; the fragment with everything that the API schema
needs leaves no object type undone, and declares the operations last.

Results:
1. `operation_eq_of_name`: which operations bear one name.
2. `operations_ends`: the operations of an entity.
3. `modelArtifact_declares`, `modelArtifacts_end`: the types of an entity, and those of many.
4. `mem_modelNames_iff`, `modelArtifacts_declare`: what is declared for each of many.
5. `apiSchemaEntity_declares`, `apiSchemaEntity_ends`: everything that the API schema needs of an entity.
-/

namespace SchemaGen.Emission

variable {c : Catalog} {t : Target} {e : Entity} {r r' r₁ r₂ : Registry} {table other : Table}
  {ds : List Declaration} {op op' : Operation}

/-! ## Operations -/

/-- The operations that an entity calls for, in name order; an object type calls for none. -/
def callsFor : Entity → List Operation
  | .table table => sortedCandidates table
  | .object _ => []

theorem mem_sortedCandidates : op ∈ sortedCandidates table ↔ op ∈ candidates table := List.mem_mergeSort

/-- The input of the mutation that does `verb`. -/
def itemInput (verb entity : String) : String :=
  if verb = "create" then Naming.createInput entity
  else if verb = "update" then Naming.updateInput entity
  else Naming.deleteInput entity

theorem mem_candidates_iff : op ∈ candidates table ↔
    (∃ verb ∈ Naming.verbs, op = itemOperation table verb (itemInput verb table.name)) ∨
      ∃ key ∈ table.queryKeys, op = queryOperation table key := by
  have hitems : candidates table =
      Naming.verbs.map (fun verb => itemOperation table verb (itemInput verb table.name)) ++
        table.queryKeys.map (queryOperation table) := by
    simp [candidates, Naming.verbs, itemInput]
  rw [hitems, List.mem_append, List.mem_map, List.mem_map]
  simp only [eq_comm]

theorem entity_of_mem_candidates (h : op ∈ candidates table) : op.entity = table.name := by
  rcases mem_candidates_iff.mp h with ⟨verb, -, rfl⟩ | ⟨key, -, rfl⟩ <;> rfl

/-- Operations of one name are the same operation of one table, or queries. -/
theorem operation_eq_of_name (h : op ∈ candidates table) (h' : op' ∈ candidates other)
    (hn : op.name = op'.name) : (table.name = other.name ∧ op = op') ∨
      ∃ key ∈ table.queryKeys, ∃ key' ∈ other.queryKeys,
        op = queryOperation table key ∧ op' = queryOperation other key' := by
  rcases mem_candidates_iff.mp h with ⟨verb, hv, rfl⟩ | ⟨key, hk, rfl⟩
  · rcases mem_candidates_iff.mp h' with ⟨verb', hv', rfl⟩ | ⟨key', -, rfl⟩
    · obtain ⟨rfl, he⟩ := Naming.mutation_inj hv hv' hn
      refine .inl ⟨he, ?_⟩
      unfold itemOperation
      rw [he]
    · exact absurd hn.symm (Naming.queryOperation_ne_mutation hv)
  · rcases mem_candidates_iff.mp h' with ⟨verb', hv', rfl⟩ | ⟨key', hk', rfl⟩
    · exact absurd hn (Naming.queryOperation_ne_mutation hv')
    · exact .inr ⟨key, hk, key', hk', rfl, rfl⟩

/-- The operations of one table are told apart by their names. -/
theorem candidates_inj (h : op ∈ candidates table) (h' : op' ∈ candidates table)
    (hn : op.name = op'.name) : op = op' := by
  rcases operation_eq_of_name h h' hn with ⟨-, he⟩ | ⟨key, -, key', -, rfl, rfl⟩
  · exact he
  · have hi := Naming.queryOperation_eq_iff.mp hn
    unfold queryOperation
    rw [hi, show Naming.queryOperation table.name key.required =
      Naming.queryOperation table.name key'.required from hn]

/-- Every operation takes and answers a type that its table brings. -/
theorem types_of_mem_candidates (h : op ∈ candidates table) :
    op.inputType ∈ Corpus.generatedNames (.table table) ∧
      op.resultType ∈ Corpus.generatedNames (.table table) := by
  rcases mem_candidates_iff.mp h with ⟨verb, hv, rfl⟩ | ⟨key, hk, rfl⟩
  · simp only [Naming.verbs, List.mem_cons, List.not_mem_nil, or_false] at hv
    constructor
    · rcases hv with rfl | rfl | rfl <;> simp [itemOperation, itemInput, Corpus.generatedNames]
    · simp [itemOperation, Corpus.generatedNames]
  · constructor
    · exact List.mem_append.mpr (.inr (List.mem_map.mpr ⟨key, hk, rfl⟩))
    · simp [queryOperation, Corpus.generatedNames]

/-- The operations of an entity are declared as far as the registry lets them through. -/
theorem operations_ends (c : Catalog) (t : Target) (e : Entity) (r : Registry) :
    (single c t e .operations).Ends r (OperationStep t (callsFor e) r) := by
  cases e with
  | object o => exact ⟨[], r, rfl, .nil r⟩
  | table table => exact Emit.ends_total (freeOperations_step (sortedCandidates table) r)

/-! ## Types -/

/-- The names that a fragment marks for an entity. -/
def marked (e : Entity) : Fragment → List String
  | .entityModel => [e.name]
  | .inputVariant =>
    match e with
    | .object o => [Naming.inputVariant o.name]
    | .table _ => []
  | .crudInputs =>
    match e with
    | .object _ => []
    | .table table =>
      [Naming.createInput table.name, Naming.updateInput table.name, Naming.deleteInput table.name]
  | .queryInputs =>
    match e with
    | .object _ => []
    | .table table => table.queryKeys.map fun key => Naming.queryInput table.name key.required
  | .responseEnvelopes =>
    match e with
    | .object _ => []
    | .table table => [Naming.listResponse table.name, Naming.response table.name]
  | _ => []

/-- The fragments that declare the types of an entity. -/
def ownFragments : List Fragment :=
  [.entityModel, .inputVariant, .crudInputs, .queryInputs, .responseEnvelopes]

/-- A fragment that declares types of a sound catalog's entity can be rendered. -/
theorem single_declares (hc : c.IsSound) (he : c.entity? e.name = some e) {f : Fragment}
    (hf : f ∈ ownFragments) (r : Registry) :
    (single c t e f).Ends r (Declares t (Belongs e) (marked e f) r) := by
  have hnone : ∀ names : List String, names = [] →
      (Emit.pure [] : Emit (List Declaration)).Ends r (Declares t (Belongs e) names r) := by
    rintro names rfl
    exact ⟨[], r, rfl, .refl r⟩
  have hkeys : ∀ table, e = .table table →
      ∀ k ∈ table.keyAttributes, ∃ a, table.attribute? k = some a := by
    rintro table rfl k hk
    exact hc.attribute?_of_key he hk
  simp only [ownFragments, List.mem_cons, List.not_mem_nil, or_false] at hf
  rcases hf with rfl | rfl | rfl | rfl | rfl
  · exact Emit.ends_total entityModel_step
  · cases e with
    | object o => exact Emit.ends_total inputVariant_step
    | table table => exact hnone _ rfl
  · cases e with
    | object o => exact hnone _ rfl
    | table table => exact crudInputs_ends (hkeys table rfl)
  · cases e with
    | object o => exact hnone _ rfl
    | table table => exact queryInputs_ends (hkeys table rfl)
  · cases e with
    | object o => exact hnone _ rfl
    | table table => exact Emit.ends_total responseEnvelopes_step

/-- These fragments mark the entity's name and every name generated for it. -/
theorem mem_marked {n : String} (h : n = e.name ∨ n ∈ Corpus.generatedNames e) :
    n ∈ ownFragments.flatMap (marked e) := by
  rcases h with rfl | h
  · exact List.mem_flatMap.mpr ⟨.entityModel, by decide, List.mem_singleton.mpr rfl⟩
  · cases e with
    | object o => exact List.mem_flatMap.mpr ⟨.inputVariant, by decide, h⟩
    | table table =>
      rcases List.mem_append.mp h with h | h
      · simp only [List.mem_cons, List.not_mem_nil, or_false] at h
        simp only [ownFragments, List.flatMap_cons, marked, List.mem_append, List.mem_cons,
          List.not_mem_nil, or_false]
        tauto
      · exact List.mem_flatMap.mpr ⟨.queryInputs, by decide, h⟩

/-! ## Fragments with parts -/

/-- A composite fragment yields what its parts yield. -/
theorem render_ends {f : Fragment} {Q : List Declaration → Registry → Prop}
    (hown : single c t e f = Emit.pure [])
    (h : (Emit.collect (single c t e) f.dependencies).Ends r Q) : (Emit.fragment c t e f).Ends r Q := by
  refine h.bind fun parts r₁ hq => ?_
  rw [hown]
  refine ⟨parts, r₁, ?_, hq⟩
  show (Except.ok (parts ++ []), r₁) = _
  rw [List.append_nil]

/-- The types of an entity, as the models render them. -/
theorem modelArtifact_declares (hc : c.IsSound) (he : c.entity? e.name = some e) (r : Registry) :
    (Emit.fragment c t e .modelArtifact).Ends r
      (Declares t (Belongs e) (Fragment.modelArtifact.dependencies.flatMap (marked e)) r) := by
  refine render_ends rfl (collect_declares _ fun f hf r => single_declares hc he ?_ r)
  revert f
  decide

theorem modelArtifact_ends (hc : c.IsSound) (he : c.entity? e.name = some e) (r : Registry) :
    (Emit.fragment c t e .modelArtifact).Ends r (TypeStep t (Belongs e) r) :=
  (modelArtifact_declares hc he r).mono fun _ _ h => h.step

/-- What making files of the types of entities has done, one file for each: no operation was marked, and
no type but theirs. -/
structure Modelled (t : Target) (name : Entity → String) (entities : List Entity) (r : Registry)
    (files : List (String × String)) (r' : Registry) : Prop where
  names : files.map Prod.fst = entities.map name
  operations : r'.operations = r.operations
  types : ∀ n, r'.hasType t n = true →
    r.hasType t n = true ∨ ∃ e ∈ entities, n = e.name ∨ n ∈ Corpus.generatedNames e

theorem modelArtifacts_end (hc : c.IsSound) {f : Entity → List Declaration → String × String}
    {name : Entity → String} (hname : ∀ e ds, (f e ds).1 = name e) (entities : List Entity)
    (h : ∀ e ∈ entities, c.entity? e.name = some e) (r : Registry) :
    (Emit.collect (fun e => do return [f e (← Emit.fragment c t e .modelArtifact)]) entities).Ends r
      (Modelled t name entities r) := by
  induction entities generalizing r with
  | nil => exact ⟨[], r, rfl, rfl, rfl, fun n hn => .inl hn⟩
  | cons e rest ih =>
    obtain ⟨ds, r₁, hds, hstep⟩ := modelArtifact_ends (t := t) hc (h e List.mem_cons_self) r
    obtain ⟨more, r', hmore, hrest⟩ := ih (fun e he => h e (List.mem_cons_of_mem _ he)) r₁
    have hfile : (do return [f e (← Emit.fragment c t e .modelArtifact)] : Emit (List (String × String))) r =
        (.ok [f e ds], r₁) := Emit.bind_of_eq_ok hds
    refine ⟨_, r', Emit.collect_cons_eq_ok.mpr ⟨_, _, r₁, hfile, hmore, rfl⟩, ?_, ?_, fun n hn => ?_⟩
    · rw [List.map_append, hrest.names, List.map_singleton, hname]
      rfl
    · exact hrest.operations.trans hstep.operations
    · rcases hrest.types n hn with hn | ⟨g, hg, hn⟩
      · exact (hstep.name_of_marked hn).imp_right fun hn => ⟨e, List.mem_cons_self, hn⟩
      · exact .inr ⟨g, List.mem_cons_of_mem _ hg, hn⟩

/-- The names of the types that the models render for an entity. -/
def modelNames : Entity → List String
  | .object o => [o.name]
  | .table table => table.name :: Corpus.generatedNames (.table table)

/-- They are those that the fragments of the models mark. -/
theorem mem_modelNames_iff {n : String} :
    n ∈ modelNames e ↔ n ∈ Fragment.modelArtifact.dependencies.flatMap (marked e) := by
  cases e with
  | object o => rfl
  | table table =>
    simp only [modelNames, Corpus.generatedNames, Fragment.dependencies, List.flatMap_cons, List.flatMap_nil,
      marked, Entity.name, List.mem_cons, List.mem_append, List.not_mem_nil, or_false]
    tauto

example : modelNames (.table ⟨"Order", "1", none, [], "id", some "day", []⟩) =
    ["Order", "CreateOrderInput", "UpdateOrderInput", "DeleteOrderInput", "OrderResponse",
      "OrderListResponse", "OrderQueryByIdInput", "OrderQueryByDayInput", "OrderQueryByIdAndDayInput"] := by
  decide +kernel

theorem name_mem_modelNames (e : Entity) : e.name ∈ modelNames e := by
  cases e with
  | object o => exact List.mem_singleton.mpr rfl
  | table table => exact List.mem_cons_self

theorem of_mem_modelNames {n : String} (h : n ∈ modelNames e) :
    n = e.name ∨ n ∈ Corpus.generatedNames e := by
  cases e with
  | object o => exact .inl (List.mem_singleton.mp h)
  | table table => exact List.mem_cons.mp h

/-- The types that an entity brings where none of them is marked yet: each of them once, its own one among
them. -/
structure Artifact (e : Entity) (decls : List TypeDecl) : Prop where
  belongs : ∀ d ∈ decls, Belongs e d
  own : entityDecl e ∈ decls
  once : (decls.map TypeDecl.name).Nodup
  names : ∀ n, n ∈ decls.map TypeDecl.name ↔ n ∈ modelNames e

theorem Artifact.of_declares (hc : c.IsSound) (he : c.entity? e.name = some e)
    (h : Declares t (Belongs e) (Fragment.modelArtifact.dependencies.flatMap (marked e)) r ds r')
    (hfree : ∀ n ∈ modelNames e, r.hasType t n = false) : Artifact e (Declaration.types ds) := by
  obtain ⟨hstep, hmarks, hnamed⟩ := h
  have hmap : (Declaration.types ds).map TypeDecl.name = ds.map Declaration.name :=
    calc (Declaration.types ds).map TypeDecl.name
      _ = ((Declaration.types ds).map Declaration.type).map Declaration.name := by rw [List.map_map]; rfl
      _ = ds.map Declaration.name := by rw [hstep.map_types]
  have hbelongs : ∀ d ∈ Declaration.types ds, Belongs e d := by
    intro d hd
    obtain ⟨decl, hdecl, hb⟩ := hstep.declared _ (Declaration.mem_types_iff.mp hd)
    cases hdecl
    exact hb
  have hnames : ∀ n, n ∈ (Declaration.types ds).map TypeDecl.name ↔ n ∈ modelNames e := by
    intro n
    rw [hmap]
    constructor
    · intro hn
      obtain ⟨d, hd, rfl⟩ := List.mem_map.mp hn
      exact mem_modelNames_iff.mpr (hnamed d hd)
    · intro hn
      refine ((hstep.marks n).mp (hmarks n (mem_modelNames_iff.mp hn))).resolve_left ?_
      rw [hfree n hn]
      exact Bool.false_ne_true
  refine ⟨hbelongs, ?_, hmap ▸ hstep.once, hnames⟩
  -- the type that bears the entity's name is its own one
  obtain ⟨d, hd, hname⟩ := List.mem_map.mp ((hnames _).mpr (name_mem_modelNames e))
  rw [eq_of_name hc he (entityDecl_mem_ownDecls e) (hbelongs d hd) hname.symm]
  exact hd

/-- Entities of which nothing is marked bring their types one after another, whatever is made of them. -/
theorem modelArtifacts_declare (hc : c.IsSound) (t : Target) (entities : List Entity)
    (hu : (entities.map Entity.name).Nodup) (h : ∀ e ∈ entities, c.entity? e.name = some e) (r : Registry)
    (hfree : ∀ e ∈ entities, ∀ n ∈ modelNames e, r.hasType t n = false) :
    ∃ (decls : Entity → List TypeDecl) (r' : Registry), (∀ e ∈ entities, Artifact e (decls e)) ∧
      ∀ {α : Type} (f : Entity → List TypeDecl → α),
        Emit.collect (fun e => do
          return [f e (Declaration.types (← Emit.fragment c t e .modelArtifact))]) entities r =
            (.ok (entities.map fun e => f e (decls e)), r') := by
  induction entities generalizing r with
  | nil => exact ⟨fun _ => [], r, fun _ he => (List.not_mem_nil he).elim, fun _ => rfl⟩
  | cons e rest ih =>
    rw [List.map_cons, List.nodup_cons] at hu
    have he := h e List.mem_cons_self
    obtain ⟨ds, r₁, hds, hdeclares⟩ := modelArtifact_declares (t := t) hc he r
    have hrest : ∀ f ∈ rest, ∀ n ∈ modelNames f, r₁.hasType t n = false := by
      intro f hf n hn
      rw [Bool.eq_false_iff]
      intro hm
      rcases hdeclares.step.name_of_marked hm with hm | hm
      · rw [hfree f (List.mem_cons_of_mem _ hf) n hn] at hm
        cases hm
      · have hef := hc.eq_of_typeName he (h f (List.mem_cons_of_mem _ hf)) hm (of_mem_modelNames hn)
        exact hu.1 (hef ▸ List.mem_map_of_mem hf)
    obtain ⟨decls, r', hartifacts, hrun⟩ :=
      ih hu.2 (fun f hf => h f (List.mem_cons_of_mem _ hf)) r₁ hrest
    have hne : ∀ f ∈ rest, f ≠ e := fun f hf hfe => hu.1 (hfe ▸ List.mem_map_of_mem hf)
    refine ⟨Function.update decls e (Declaration.types ds), r', fun f hf => ?_, fun f => ?_⟩
    · rcases List.mem_cons.mp hf with rfl | hf
      · rw [Function.update_self]
        exact .of_declares hc he hdeclares (hfree _ List.mem_cons_self)
      · rw [Function.update_of_ne (hne f hf)]
        exact hartifacts f hf
    · rw [Emit.collect_cons_eq_ok]
      refine ⟨[f e (Declaration.types ds)], _, r₁, Emit.bind_of_eq_ok hds, hrun f, ?_⟩
      rw [List.map_cons, Function.update_self]
      refine congrArg (_ :: ·) (List.map_congr_left fun g hg => ?_)
      rw [Function.update_of_ne (hne g hg)]

/-- What was done for an entity whose embedded types and own types were declared: they belong to it or
to what it references, no object type was left undone, and everything of the entity is marked. -/
structure Entered (c : Catalog) (t : Target) (e : Entity) (r : Registry) (ds : List Declaration)
    (r' : Registry) : Prop where
  step : TypeStep t (fun d => Belongs e d ∨ From c e d) r ds r'
  walked : Walked c t r r'
  own : ∀ n, n = e.name ∨ n ∈ Corpus.generatedNames e → r'.hasType t n = true
  references : ∀ p, c.Refers e (.object p) → r'.hasType t p.name = true

/-- The embedded types of an entity and then its own ones. -/
theorem entered_of_walk (hc : c.IsSound) (he : c.entity? e.name = some e) {as bs : List Declaration}
    (hwalk : Walk c t e r as r₁)
    (hdeps : ∀ p, c.Refers e (.object p) → p.name ≠ e.name → r₁.hasType t p.name = true)
    (hown : Declares t (Belongs e) (ownFragments.flatMap (marked e)) r₁ bs r₂) :
    Entered c t e r (as ++ bs) r₂ := by
  obtain ⟨hstep, hmarks, -⟩ := hown
  have hall : ∀ n, n = e.name ∨ n ∈ Corpus.generatedNames e → r₂.hasType t n = true :=
    fun n hn => hmarks n (mem_marked hn)
  have hreferences : ∀ p, c.Refers e (.object p) → r₂.hasType t p.name = true := by
    intro p hp
    by_cases hn : p.name = e.name
    · exact hall _ (.inl hn)
    · exact hstep.mark (hdeps p hp hn)
  refine ⟨(hwalk.step.mono fun d => .inr).append (hstep.mono fun d => .inl), ?_, hall, hreferences⟩
  intro p hp hn
  rcases hstep.name_of_marked hn with hn | hpe | hg
  · exact (hwalk.walked p hp hn).imp_right fun hd => hd.mono fun n => hstep.mark
  · rw [hpe, he] at hp
    cases hp
    exact .inr ⟨hall _ (.inr (List.mem_singleton.mpr rfl)), hreferences⟩
  · -- no entity bears a generated name
    have hfree := (hc.free _ e he _ hg).1
    rw [hp] at hfree
    cases hfree

/-- Everything that the API schema needs of an entity: its embedded types, its own ones, and then its
operations. -/
theorem apiSchemaEntity_declares (hc : c.IsSound) (he : c.entity? e.name = some e) (r : Registry) :
    (Emit.fragment c t e .apiSchemaEntity).Ends r fun ds r' => ∃ own ops r₁,
      ds = (embeddedTypes c t e r).1 ++ own ++ ops ∧
        Declares t (Belongs e) (ownFragments.flatMap (marked e)) (embeddedTypes c t e r).2 own r₁ ∧
          OperationStep t (callsFor e) r₁ ops r' := by
  obtain ⟨own, r₁, hown, hdeclares⟩ := collect_declares (r := (embeddedTypes c t e r).2) ownFragments
    fun f hf r => single_declares (t := t) hc he hf r
  obtain ⟨ops, r₂, hops, hstep⟩ := operations_ends c t e r₁
  refine render_ends rfl ⟨(embeddedTypes c t e r).1 ++ (own ++ ops), r₂, ?_, own, ops, r₁,
    (List.append_assoc _ _ _).symm, hdeclares, hstep⟩
  have hlast : Emit.collect (single c t e) [.operations] r₁ = (.ok ops, r₂) :=
    Emit.collect_cons_eq_ok.mpr ⟨ops, [], r₂, hops, rfl, (List.append_nil _).symm⟩
  show Emit.collect (single c t e) (.embeddedTypes :: (ownFragments ++ [.operations])) r = _
  rw [Emit.collect_cons_eq_ok]
  exact ⟨_, _, _, rfl, Emit.collect_append_eq_ok hown hlast, rfl⟩

theorem apiSchemaEntity_ends (hc : c.IsSound) (he : c.entity? e.name = some e) (r : Registry) :
    (Emit.fragment c t e .apiSchemaEntity).Ends r fun ds r' => ∃ types ops r₁,
      ds = types ++ ops ∧ Entered c t e r types r₁ ∧ OperationStep t (callsFor e) r₁ ops r' := by
  obtain ⟨hwalk, hdeps⟩ := embeddedTypes_spec (t := t) hc e r
  refine (apiSchemaEntity_declares hc he r).mono fun ds r' ⟨own, ops, r₁, hds, hown, hstep⟩ => ?_
  exact ⟨_, ops, r₁, hds, entered_of_walk hc he hwalk hdeps hown, hstep⟩

end SchemaGen.Emission
