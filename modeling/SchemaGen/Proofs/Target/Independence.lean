import SchemaGen.Proofs.Target.Separation

/-!
# Targets do not interfere

A target may be rendered after any others, in any order, and also after one that failed and left the marks
it had made. It yields what it yields alone. Two facts carry this. A target leaves the marks of all others
as they are (`Target.keeps_render`). And what a target yields depends on its own marks only: where two
registries agree on them, it yields the same from both and leaves them in agreement (`Confined`).

Results:
1. `Confined.seq`, `Confined.bind`, `confined_collect`: steps one after another.
2. `confined_fragment`: a fragment looks at the marks of its target only.
3. `confined_generate`: so does a whole target.
4. `inTurn_eq_map`: targets that share a registry yield what each of them yields alone.
-/

namespace SchemaGen

namespace Registry

variable {α β : Type} {t : Target} {r r' : Registry}

/-- What the step yields depends on the marks of one target only, and so do the marks that it leaves of
that target. -/
def Confined (t : Target) (f : Registry → α × Registry) : Prop :=
  ∀ r r', SameMarks t r r' → (f r).1 = (f r').1 ∧ SameMarks t (f r).2 (f r').2

theorem confined_yield (a : α) : Confined t fun r => (a, r) := fun _ _ h => ⟨rfl, h⟩

theorem Confined.seq {f : Registry → α × Registry} {g : α → Registry → β × Registry} (hf : Confined t f)
    (hg : ∀ a, Confined t (g a)) : Confined t fun r => g (f r).1 (f r).2 := by
  intro r r' h
  obtain ⟨hvalue, hmarks⟩ := hf r r' h
  dsimp only
  rw [hvalue]
  exact hg _ _ _ hmarks

theorem confined_markType (name : String) : Confined t (markType t name) := by
  intro r r' h
  refine ⟨?_, fun n => ?_, fun n => ?_⟩
  · rw [fst_markType, fst_markType, h.types]
  · rw [hasType_markType, hasType_markType, h.types]
  · -- marking a type leaves the operations as they are
    have hkept : ∀ r : Registry, (r.markType t name).2.hasOperation t n = r.hasOperation t n := by
      intro r
      unfold hasOperation
      rw [sameOperations_markType name r]
    rw [hkept, hkept, h.operations]

theorem confined_markOperation (name : String) : Confined t (markOperation t name) := by
  intro r r' h
  refine ⟨?_, fun n => ?_, fun n => ?_⟩
  · rw [Emission.fst_markOperation, Emission.fst_markOperation, h.operations]
  · have hkept : ∀ r : Registry, (r.markOperation t name).2.hasType t n = r.hasType t n := by
      intro r
      unfold hasType
      rw [Emission.types_markOperation]
    rw [hkept, hkept, h.types]
  · rw [Bool.eq_iff_iff, Emission.hasOperation_markOperation, Emission.hasOperation_markOperation,
      h.operations]

end Registry

open Registry

/-! ## Steps -/

namespace Emit

variable {α β : Type} {t : Target}

theorem confined_pure (a : α) : Confined t (Pure.pure a : Emit α) := confined_yield _

theorem confined_ofExcept (x : Except RenderFault α) : Confined t (Emit.ofExcept x) := confined_yield _

theorem confined_total {f : Registry → α × Registry} (hf : Confined t f) : Confined t (Emit.total f) :=
  hf.seq fun _ => confined_yield _

theorem Confined.bind {x : Emit α} {f : α → Emit β} (hx : Confined t x) (hf : ∀ a, Confined t (f a)) :
    Confined t (x >>= f) := by
  have hrest : ∀ a : Except RenderFault α, Confined t fun r =>
      match a with
      | .ok a => f a r
      | .error fault => ((.error fault : Except RenderFault β), r) := by
    rintro (fault | a)
    · exact confined_yield _
    · exact hf a
  have hrun : (x >>= f) = fun r =>
      match (x r).1 with
      | .ok a => f a (x r).2
      | .error fault => (.error fault, (x r).2) := by
    funext r
    show Emit.bind x f r = _
    unfold Emit.bind
    rcases x r with ⟨fault | a, r₁⟩ <;> rfl
  rw [hrun]
  exact hx.seq hrest

theorem confined_collect {step : α → Emit (List β)} (members : List α) (h : ∀ a, Confined t (step a)) :
    Confined t (collect step members) := by
  induction members with
  | nil => exact confined_pure []
  | cons a rest ih =>
    exact Confined.bind (h a) fun _ => Confined.bind ih fun _ => confined_pure _

theorem confined_mark (name : String) : Confined t (Emit.mark t name) :=
  confined_total (confined_markType name)

/-- A step that is taken if a name was free, and computes without the registry. -/
theorem confined_ifFree {name : String} {x : Except RenderFault α} {f : α → β} {b : β} :
    Confined t (do if ← Emit.mark t name then return f (← Emit.ofExcept x) else return b : Emit β) := by
  refine Confined.bind (confined_mark name) fun free => ?_
  cases free with
  | true => exact Confined.bind (confined_ofExcept x) fun _ => confined_pure _
  | false => exact confined_pure b

end Emit

/-! ## Fragments -/

namespace Emission

open Emit

variable {t : Target} {c : Catalog}

theorem confined_once (decl : TypeDecl) : Confined t (once t decl) :=
  (confined_markType decl.name).seq fun free =>
    confined_yield (if free = true then [Declaration.type decl] else [])

theorem confined_onceOf (name : String) (decl : Except RenderFault TypeDecl) :
    Confined t (onceOf t name decl) := by
  have hrest : ∀ free, Confined t fun r =>
      if free = true then (decl.map fun d => [Declaration.type d], r) else (.ok [], r) := by
    intro free
    cases free with
    | true => exact confined_yield (decl.map fun d => [Declaration.type d])
    | false => exact confined_yield (Except.ok [])
  exact (confined_markType name).seq hrest

theorem confined_entityModel (e : Entity) : Confined t (entityModel t e) := confined_once _

theorem confined_inputVariant (e : Entity) : Confined t (inputVariant t e) := by
  cases e with
  | table table => exact confined_yield []
  | object o => exact confined_once _

theorem confined_each {f : Entity → Registry → List Declaration × Registry} (hf : ∀ e, Confined t (f e))
    (entities : List Entity) : Confined t (each f entities) := by
  induction entities with
  | nil => exact confined_yield []
  | cons e rest ih =>
    exact (hf e).seq fun here => ih.seq fun later => confined_yield (here ++ later)

/-- The walk enters the types that are free for its target. -/
theorem confined_embedded (depth : Nat) (e : Entity) : Confined t (embedded c t depth e) := by
  induction depth generalizing e with
  | zero => exact confined_yield []
  | succ depth ih =>
    have hvisit : ∀ dep, Confined t (visit c t depth dep) := by
      intro dep r r' h
      cases dep with
      | table table => exact ⟨rfl, h⟩
      | object o =>
        cases hm : r.hasType t o.name with
        | true =>
          rw [visit_of_marked hm, visit_of_marked ((h.types _).trans hm)]
          exact ⟨rfl, h⟩
        | false =>
          rw [visit_of_free hm, visit_of_free ((h.types _).trans hm)]
          have hentered := (confined_entityModel (t := t) (.object o)).seq fun own =>
            (ih (.object o)).seq fun inner => (confined_inputVariant (.object o)).seq fun input =>
              confined_yield (own ++ inner ++ input)
          exact hentered r r' h
    have hlevel := confined_each hvisit (c.dependencies e)
    intro r r' h
    rw [embedded_eq_each, embedded_eq_each]
    exact hlevel r r' h

theorem confined_embeddedTypes (e : Entity) : Confined t (embeddedTypes c t e) := by
  intro r r' h
  have hdepth : unmarked c t r' = unmarked c t r := by
    unfold unmarked
    simp only [h.types]
  unfold embeddedTypes
  rw [hdepth]
  exact confined_embedded _ e r r' h

theorem confined_responseEnvelopes (table : Table) : Confined t (responseEnvelopes t table) :=
  (confined_once (listEnvelope table)).seq fun list =>
    (confined_once (itemEnvelope table)).seq fun item => confined_yield (list ++ item)

theorem confined_freeOperations (ops : List Operation) : Confined t (freeOperations t ops) := by
  induction ops with
  | nil => exact confined_yield []
  | cons op rest ih =>
    exact (confined_markOperation op.name).seq fun free => ih.seq fun later =>
      confined_yield (if free = true then .operation op :: later else later)

theorem confined_crudInputs (table : Table) : Confined t (crudInputs t table) := by
  have honce : ∀ decl, Confined t (Emit.total (once t decl)) := fun decl =>
    confined_total (confined_once decl)
  exact Confined.bind (honce _) fun _ => Confined.bind (honce _) fun _ =>
    Confined.bind (confined_onceOf _ _) fun _ => confined_pure _

theorem confined_queryInputs (table : Table) : Confined t (queryInputs t table) :=
  confined_collect _ fun _ => confined_onceOf _ _

theorem confined_forTable {e : Entity} {f : Table → Emit (List Declaration)}
    (hf : ∀ table, Confined t (f table)) : Confined t (forTable e f) := by
  cases e with
  | table table => exact hf table
  | object o => exact confined_pure []

theorem confined_single (e : Entity) (f : Fragment) : Confined t (single c t e f) := by
  cases f with
  | entityModel => exact confined_total (confined_entityModel e)
  | inputVariant => exact confined_total (confined_inputVariant e)
  | embeddedTypes => exact confined_total (confined_embeddedTypes e)
  | crudInputs => exact confined_forTable confined_crudInputs
  | queryInputs => exact confined_forTable confined_queryInputs
  | responseEnvelopes =>
    exact confined_forTable fun table => confined_total (confined_responseEnvelopes table)
  | operations => exact confined_forTable fun table => confined_total (confined_freeOperations _)
  | modelArtifact => exact confined_pure []
  | apiSchemaEntity => exact confined_pure []

theorem confined_fragment (e : Entity) (f : Fragment) : Confined t (Emit.fragment c t e f) :=
  Confined.bind (confined_collect f.dependencies fun g => confined_single e g) fun _ =>
    Confined.bind (confined_single e f) fun _ => confined_pure _

end Emission

/-! ## Targets -/

open Emit Emission

variable {c : Catalog} {o : Options}

theorem HostModel.confined_generate : Confined .rust (HostModel.generate o c) := by
  have hmodel : ∀ e, Confined .rust (HostModel.modelFile o c e) := fun e =>
    Confined.bind (confined_fragment e _) fun _ => confined_pure _
  have henum : ∀ e, Confined .rust (HostModel.enumFile o e) := fun e => confined_ifFree
  exact Confined.bind (confined_collect _ hmodel) fun _ => Confined.bind (confined_collect _ henum) fun _ =>
    Confined.bind (confined_ofExcept _) fun _ => confined_pure _

theorem ClientModel.confined_generate : Confined .typescript (ClientModel.generate o c) := by
  have hmodel : ∀ e, Confined .typescript (ClientModel.modelFile o c e) := fun e =>
    Confined.bind (confined_fragment e _) fun _ => confined_pure _
  have hoperations : ∀ table, Confined .typescript (ClientModel.operationsFile c table) := fun table =>
    Confined.bind (confined_fragment _ _) fun _ => confined_pure _
  have henum : ∀ e, Confined .typescript (ClientModel.enumFile e) := by
    refine fun e => Confined.bind (confined_mark e.name) fun free => ?_
    cases free <;> exact confined_pure _
  exact Confined.bind (confined_collect _ hmodel) fun _ =>
    Confined.bind (confined_collect _ hoperations) fun _ =>
      Confined.bind (confined_collect _ henum) fun _ => confined_pure _

theorem ApiSchema.confined_generate : Confined .graphql (ApiSchema.generate o c) := by
  have henum : ∀ e, Confined .graphql (ApiSchema.enumDefinition e) := fun e => confined_ifFree
  have hdefinitions : Confined .graphql (ApiSchema.definitions o c) :=
    Confined.bind (confined_collect _ fun e => confined_fragment e _) fun _ =>
      Confined.bind (confined_collect _ henum) fun _ => confined_pure _
  exact Confined.bind hdefinitions fun _ => confined_pure _

theorem Infra.confined_addTables (stack : Stack) (tables : List Table) :
    Confined .infra (Infra.addTables stack tables) := by
  induction tables generalizing stack with
  | nil => exact confined_pure stack
  | cons table rest ih =>
    have hadd : Confined .infra (Infra.addTable stack table) := confined_ifFree
    exact Confined.bind hadd ih

theorem Infra.confined_storage : Confined .infra (Infra.storage c) :=
  Confined.bind (confined_addTables _ c.tables) fun _ => confined_pure _

theorem Infra.confined_generate : Confined .infra (Infra.generate o c) := by
  have hresolvers : ∀ table, Confined .infra (Infra.resolvers c table) := fun table =>
    Confined.bind (confined_fragment _ _) fun _ => confined_ofExcept _
  have htable : ∀ table, Confined .infra (Infra.tableResources c table) := fun table =>
    Confined.bind (hresolvers table) fun _ => confined_pure _
  have hapi : Confined .infra (Infra.api o c) :=
    Confined.bind (confined_collect _ htable) fun _ => confined_pure _
  exact Confined.bind Infra.confined_storage fun _ => Confined.bind hapi fun _ => confined_pure _

namespace Target

variable {t : Target}

/-- A target looks at its own marks only. -/
theorem confined_generate (t : Target) : Confined t (t.generate o c) := by
  cases t with
  | rust => exact HostModel.confined_generate
  | typescript => exact ClientModel.confined_generate
  | graphql => exact ApiSchema.confined_generate
  | infra => exact Infra.confined_generate

theorem confined_render (t : Target) : Confined t (t.render o c) :=
  Confined.bind (confined_generate t) fun _ => confined_ofExcept _

end Target

/-- What steps yield, one for each target in order, where they share a registry and each of them goes on
from the marks of those before it, also of those that failed. -/
def Emit.inTurn {α : Type} (step : Target → Emit α) : List Target → Registry → List (Except RenderFault α)
  | [], _ => []
  | t :: rest, r => (step t r).1 :: inTurn step rest (step t r).2

/-- Steps that look at the marks of their targets only, and leave the others alone, yield in turn what each
of them yields by itself from a registry with the same marks of its target. -/
theorem Emit.inTurn_eq_map {α : Type} {step : Target → Emit α} (hconfined : ∀ t, Confined t (step t))
    (hkeeps : ∀ t u, u ≠ t → Keeps (SameMarks u) (step t)) {targets : List Target} (hn : targets.Nodup)
    {r r' : Registry} (hr : ∀ t ∈ targets, SameMarks t r r') :
    inTurn step targets r' = targets.map fun t => (step t r).1 := by
  induction targets generalizing r' with
  | nil => rfl
  | cons t rest ih =>
    rw [List.nodup_cons] at hn
    have hhead : (step t r).1 = (step t r').1 :=
      (hconfined t r r' (hr t List.mem_cons_self)).1
    have hrest : ∀ u ∈ rest, SameMarks u r (step t r').2 := by
      intro u hu
      have hne : u ≠ t := fun he => hn.1 (he ▸ hu)
      exact trans_of (SameMarks u) (hr u (List.mem_cons_of_mem _ hu)) (hkeeps t u hne r')
    rw [List.map_cons, hhead, ← ih hn.2 hrest]
    rfl

/-- A run puts together what its targets yield in turn, up to the first fault. -/
theorem Run.renderAll_eq_mapM (s : Settings) (o : Options) (c : Catalog) (targets : List Target)
    (r : Registry) : Run.renderAll s o c targets r =
      (targets.zip (Emit.inTurn (fun t => t.render o c) targets r)).mapM fun p =>
        p.2.map fun files => ⟨s.outputDir p.1, files⟩ := by
  induction targets generalizing r with
  | nil => rfl
  | cons t rest ih =>
    have hrest := ih (t.render o c r).2
    unfold Run.renderAll
    unfold Emit.inTurn
    rw [List.zip_cons_cons, List.mapM_cons, ← hrest]
    rcases t.render o c r with ⟨fault | files, r'⟩
    · rfl
    · dsimp only [Except.map]
      cases Run.renderAll s o c rest r' <;> rfl

/-- Targets do not interfere: different ones that share a registry yield, in any order, what each of them
yields from a registry of its own, also after targets that failed half way. So a run yields what its
targets yield alone, up to the first that fails. -/
theorem Target.yield_as_alone (o : Target → Options) (c : Catalog) {targets : List Target}
    (hn : targets.Nodup) :
    Emit.inTurn (fun t => t.generate (o t) c) targets .empty =
        targets.map (fun t => (t.generate (o t) c .empty).1) ∧
      Emit.inTurn (fun t => t.render (o t) c) targets .empty =
        targets.map (fun t => (t.render (o t) c .empty).1) ∧
      ∀ s o, Run.renderAll s o c targets .empty =
        targets.mapM fun t => (t.render o c .empty).1.map fun files => ⟨s.outputDir t, files⟩ := by
  have hsame : ∀ t ∈ targets, SameMarks t .empty .empty := fun t _ => refl_of _ _
  have hrender : ∀ o : Target → Options, Emit.inTurn (fun t => t.render (o t) c) targets .empty =
      targets.map fun t => (t.render (o t) c .empty).1 := fun o =>
    Emit.inTurn_eq_map (fun t => confined_render t) (fun _ _ h => keeps_render h) hn hsame
  refine ⟨?_, hrender o, fun s o => ?_⟩
  · exact Emit.inTurn_eq_map (fun t => confined_generate t) (fun _ _ h => keeps_generate h) hn hsame
  · rw [Run.renderAll_eq_mapM, hrender fun _ => o, ← List.map_prod_left_eq_zip, List.mapM_map]
    rfl

/-- The documents of an object type, and of an enum that the API schema cannot have. -/
def flagged : Corpus :=
  ⟨[⟨⟨"Note.yml"⟩, "Note", none, .object .api [⟨"flag", .reference "Flag", false, none, none⟩]⟩],
    [⟨⟨"enums.yml"⟩, "Flag", ["true"]⟩]⟩

/-- The catalog of these documents. -/
def flaggedCatalog : Catalog := flagged.catalog.toOption.getD .empty

/-- The options of a run on these documents. -/
def flaggedOptions : Options := ⟨true, "shop", 0, "schema.graphql"⟩

/-- The API schema fails after it has marked the types of the documents; the targets after it yield what
they do alone. -/
theorem Target.yield_as_alone_flagged :
    [Target.graphql, .typescript, .infra].Nodup ∧
      (Target.graphql.generate flaggedOptions flaggedCatalog .empty).1 =
          .error (.reservedValue "Flag" "true") ∧
        (Target.graphql.generate flaggedOptions flaggedCatalog .empty).2 ≠ .empty ∧
        Emit.inTurn (fun t => t.generate flaggedOptions flaggedCatalog) [.graphql, .typescript, .infra]
          .empty = [.error (.reservedValue "Flag" "true"),
            (Target.typescript.generate flaggedOptions flaggedCatalog .empty).1,
            (Target.infra.generate flaggedOptions flaggedCatalog .empty).1] := by
  have hn : [Target.graphql, .typescript, .infra].Nodup := by decide
  have hfault : (Target.graphql.generate flaggedOptions flaggedCatalog .empty).1 =
      .error (.reservedValue "Flag" "true") := by decide +kernel
  refine ⟨hn, hfault, by decide +kernel, ?_⟩
  rw [(Target.yield_as_alone (fun _ => flaggedOptions) flaggedCatalog hn).1, ← hfault]
  rfl

end SchemaGen
