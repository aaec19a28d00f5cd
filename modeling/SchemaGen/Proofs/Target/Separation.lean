import SchemaGen.Proofs.Emission.Embedded
import SchemaGen.Proofs.Run.Staging

/-!
# Targets keep apart

All targets of a run share one registry, and each of them marks names of its own only. So whatever
targets were rendered before it, a target starts from a registry that is fresh for it.

What steps leave alone is a relation between the registry before and after them (`Keeps`). It need only
be a preorder to hold of steps one after another; each step of emission is then looked at once.

Results:
1. `Keeps.bind`, `keeps_collect`: steps one after another.
2. `keeps_fragment`: a fragment leaves the marks of other targets alone.
3. `keeps_render`: so does a whole target.
4. `renderAll_isFresh`: every target of a run is rendered from a registry that is fresh for it.
-/

namespace SchemaGen

namespace Registry

variable {t u : Target}

/-- The marks of a target are the same in both registries. -/
structure SameMarks (u : Target) (r r' : Registry) : Prop where
  types : ∀ n, r'.hasType u n = r.hasType u n
  operations : ∀ n, r'.hasOperation u n = r.hasOperation u n

instance (u : Target) : IsPreorder Registry (SameMarks u) where
  refl _ := ⟨fun _ => rfl, fun _ => rfl⟩
  trans _ _ _ h₁ h₂ :=
    ⟨fun n => (h₂.types n).trans (h₁.types n), fun n => (h₂.operations n).trans (h₁.operations n)⟩

/-- The marked operations are the same in both registries. -/
def SameOperations (r r' : Registry) : Prop := r'.operations = r.operations

instance : IsPreorder Registry SameOperations where
  refl _ := rfl
  trans _ _ _ h₁ h₂ := Eq.trans h₂ h₁

/-- The registry holds no mark of the target. -/
structure IsFresh (u : Target) (r : Registry) : Prop where
  types : ∀ n, r.hasType u n = false
  operations : ∀ n, r.hasOperation u n = false

theorem isFresh_empty (u : Target) : IsFresh u .empty := ⟨fun _ => rfl, fun _ => rfl⟩

theorem IsFresh.of_sameMarks {r r' : Registry} (h : IsFresh u r) (hs : SameMarks u r r') : IsFresh u r' :=
  ⟨fun n => (hs.types n).trans (h.types n), fun n => (hs.operations n).trans (h.operations n)⟩

theorem IsFresh.seen {r : Registry} (h : IsFresh u r) : Emission.Seen u r [] := fun n => by
  simp [h.operations n]

theorem sameMarks_markType (h : u ≠ t) (name : String) (r : Registry) :
    SameMarks u r (r.markType t name).2 := by
  constructor
  · intro n
    rw [hasType_markType, decide_eq_false fun he => h he.1, Bool.false_or]
  · intro n
    unfold markType
    split <;> rfl

theorem sameMarks_markOperation (h : u ≠ t) (name : String) (r : Registry) :
    SameMarks u r (r.markOperation t name).2 := by
  unfold markOperation
  split
  · exact refl_of _ r
  · refine ⟨fun n => rfl, fun n => ?_⟩
    unfold hasOperation
    rw [List.contains_cons, beq_eq_false_iff_ne.mpr fun he => h (congrArg Prod.fst he), Bool.false_or]

theorem sameOperations_markType (name : String) (r : Registry) :
    SameOperations r (r.markType t name).2 := by
  unfold SameOperations markType
  split <;> rfl

end Registry

/-! ## Steps -/

namespace Emit

variable {α β : Type} {R : Registry → Registry → Prop}

/-- The step relates the registry before it to the one after it, whether it fails or not. -/
def Keeps (R : Registry → Registry → Prop) (x : Emit α) : Prop := ∀ r, R r (x r).2

/-- A step that ends as told, and what it leaves alone. -/
theorem Keeps.ends {x : Emit α} {r : Registry} {Q : α → Registry → Prop} (hk : Keeps R x)
    (h : x.Ends r Q) : x.Ends r fun a r' => Q a r' ∧ R r r' := by
  obtain ⟨a, r', hrun, hq⟩ := h
  have hrel := hk r
  rw [hrun] at hrel
  exact ⟨a, r', hrun, hq, hrel⟩

variable [IsPreorder Registry R]

theorem keeps_pure (a : α) : Keeps R (Pure.pure a : Emit α) := fun r => refl_of R r

theorem keeps_ofExcept (x : Except RenderFault α) : Keeps R (Emit.ofExcept x) := fun r => refl_of R r

theorem Keeps.bind {x : Emit α} {f : α → Emit β} (hx : Keeps R x) (hf : ∀ a, Keeps R (f a)) :
    Keeps R (x >>= f) := by
  intro r
  have hfirst := hx r
  show R r (Emit.bind x f r).2
  unfold Emit.bind
  rcases hrun : x r with ⟨fault | a, r₁⟩
  · -- a fault keeps the marks that were made before it
    rw [hrun] at hfirst
    exact hfirst
  · rw [hrun] at hfirst
    exact trans_of R hfirst (hf a r₁)

theorem keeps_collect {step : α → Emit (List β)} {members : List α}
    (h : ∀ a ∈ members, Keeps R (step a)) : Keeps R (collect step members) := by
  induction members with
  | nil => exact keeps_pure []
  | cons a rest ih =>
    have hrest := ih fun b hb => h b (List.mem_cons_of_mem _ hb)
    exact (h a List.mem_cons_self).bind fun _ => hrest.bind fun _ => keeps_pure _

/-- A step that is taken if a name was free, and computes without the registry. -/
theorem keeps_ifFree {t : Target} {name : String} (hmark : Keeps R (Emit.mark t name))
    {x : Except RenderFault α} {f : α → β} {b : β} :
    Keeps R (do if ← Emit.mark t name then return f (← Emit.ofExcept x) else return b) := by
  refine hmark.bind fun free => ?_
  cases free with
  | true => exact (keeps_ofExcept x).bind fun _ => keeps_pure _
  | false => exact keeps_pure b

end Emit

/-! ## Fragments -/

namespace Emission

open Registry Emit

variable {t u : Target} {c : Catalog}

theorem sameMarks_once (h : u ≠ t) (decl : TypeDecl) (r : Registry) :
    SameMarks u r (once t decl r).2 := sameMarks_markType h _ r

theorem keeps_onceOf (h : u ≠ t) (name : String) (decl : Except RenderFault TypeDecl) :
    Keeps (SameMarks u) (onceOf t name decl) := by
  intro r
  unfold onceOf
  split <;> exact sameMarks_markType h name r

theorem sameMarks_inputVariant (h : u ≠ t) (e : Entity) (r : Registry) :
    SameMarks u r (inputVariant t e r).2 := by
  cases e with
  | table table => exact refl_of _ r
  | object o => exact sameMarks_once h _ r

theorem sameMarks_each {f : Entity → Registry → List Declaration × Registry}
    (hf : ∀ e r, SameMarks u r (f e r).2) (entities : List Entity) (r : Registry) :
    SameMarks u r (each f entities r).2 := by
  induction entities generalizing r with
  | nil => exact refl_of _ r
  | cons e rest ih => exact trans_of (SameMarks u) (hf e r) (ih _)

theorem sameMarks_embedded (h : u ≠ t) (depth : Nat) (e : Entity) (r : Registry) :
    SameMarks u r (embedded c t depth e r).2 := by
  induction depth generalizing e r with
  | zero => exact refl_of _ r
  | succ depth ih =>
    rw [embedded_eq_each]
    refine sameMarks_each (fun dep r => ?_) _ r
    -- a table is not entered, nor is a type that was marked before
    cases dep with
    | table table => exact refl_of _ r
    | object o =>
      cases hm : r.hasType t o.name with
      | true =>
        rw [visit_of_marked hm]
        exact refl_of _ r
      | false =>
        rw [visit_of_free hm]
        have hown := sameMarks_once h (entityDecl (.object o)) r
        exact trans_of (SameMarks u) (trans_of (SameMarks u) hown (ih _ _)) (sameMarks_inputVariant h _ _)

theorem sameMarks_responseEnvelopes (h : u ≠ t) (table : Table) (r : Registry) :
    SameMarks u r (responseEnvelopes t table r).2 :=
  trans_of (SameMarks u) (sameMarks_once h _ r) (sameMarks_once h _ _)

theorem sameMarks_freeOperations (h : u ≠ t) (ops : List Operation) (r : Registry) :
    SameMarks u r (freeOperations t ops r).2 := by
  induction ops generalizing r with
  | nil => exact refl_of _ r
  | cons op rest ih => exact trans_of (SameMarks u) (sameMarks_markOperation h _ r) (ih _)

theorem keeps_crudInputs (h : u ≠ t) (table : Table) : Keeps (SameMarks u) (crudInputs t table) := by
  have hcreate : Keeps (SameMarks u) (Emit.total (once t (createDecl table))) := sameMarks_once h _
  have hupdate : Keeps (SameMarks u) (Emit.total (once t (updateDecl table))) := sameMarks_once h _
  exact hcreate.bind fun _ => hupdate.bind fun _ => (keeps_onceOf h _ _).bind fun _ => keeps_pure _

theorem keeps_queryInputs (h : u ≠ t) (table : Table) : Keeps (SameMarks u) (queryInputs t table) :=
  keeps_collect fun _ _ => keeps_onceOf h _ _

theorem keeps_forTable {e : Entity} {f : Table → Emit (List Declaration)}
    (hf : ∀ table, Keeps (SameMarks u) (f table)) : Keeps (SameMarks u) (forTable e f) := by
  cases e with
  | table table => exact hf table
  | object o => exact keeps_pure []

theorem keeps_single (h : u ≠ t) (e : Entity) (f : Fragment) : Keeps (SameMarks u) (single c t e f) := by
  cases f with
  | entityModel => exact sameMarks_once h _
  | inputVariant => exact sameMarks_inputVariant h e
  | embeddedTypes => exact fun r => sameMarks_embedded h _ e r
  | crudInputs => exact keeps_forTable (keeps_crudInputs h)
  | queryInputs => exact keeps_forTable (keeps_queryInputs h)
  | responseEnvelopes => exact keeps_forTable fun table => sameMarks_responseEnvelopes h table
  | operations => exact keeps_forTable fun table => sameMarks_freeOperations h _
  | modelArtifact => exact keeps_pure []
  | apiSchemaEntity => exact keeps_pure []

theorem keeps_fragment (h : u ≠ t) (e : Entity) (f : Fragment) :
    Keeps (SameMarks u) (Emit.fragment c t e f) := by
  have hparts : Keeps (SameMarks u) (Emit.collect (single c t e) f.dependencies) :=
    keeps_collect fun g _ => keeps_single h e g
  exact hparts.bind fun _ => (keeps_single h e f).bind fun _ => keeps_pure _

end Emission

/-! ## Targets -/

open Registry Emit Emission

variable {u : Target} {c : Catalog} {o : Options} {R : Registry → Registry → Prop}

theorem HostModel.keeps_generate (h : u ≠ .rust) : Keeps (SameMarks u) (HostModel.generate o c) := by
  have hmodel : ∀ e, Keeps (SameMarks u) (HostModel.modelFile o c e) := fun e =>
    (keeps_fragment h e _).bind fun _ => keeps_pure _
  have henum : ∀ e, Keeps (SameMarks u) (HostModel.enumFile o e) := fun e =>
    keeps_ifFree (sameMarks_markType h _)
  exact (keeps_collect fun e _ => hmodel e).bind fun _ => (keeps_collect fun e _ => henum e).bind fun _ =>
    (keeps_ofExcept _).bind fun _ => keeps_pure _

theorem ClientModel.keeps_generate (h : u ≠ .typescript) :
    Keeps (SameMarks u) (ClientModel.generate o c) := by
  have hmodel : ∀ e, Keeps (SameMarks u) (ClientModel.modelFile o c e) := fun e =>
    (keeps_fragment h e _).bind fun _ => keeps_pure _
  have hoperations : ∀ table, Keeps (SameMarks u) (ClientModel.operationsFile c table) := fun table =>
    (keeps_fragment h _ _).bind fun _ => keeps_pure _
  have henum : ∀ e, Keeps (SameMarks u) (ClientModel.enumFile e) := by
    refine fun e => Keeps.bind (sameMarks_markType h e.name) fun free => ?_
    cases free <;> exact keeps_pure _
  exact (keeps_collect fun e _ => hmodel e).bind fun _ =>
    (keeps_collect fun table _ => hoperations table).bind fun _ =>
      (keeps_collect fun e _ => henum e).bind fun _ => keeps_pure _

theorem ApiSchema.keeps_generate (h : u ≠ .graphql) : Keeps (SameMarks u) (ApiSchema.generate o c) := by
  have henum : ∀ e, Keeps (SameMarks u) (ApiSchema.enumDefinition e) := fun e =>
    keeps_ifFree (sameMarks_markType h _)
  have hdefinitions : Keeps (SameMarks u) (ApiSchema.definitions o c) :=
    (keeps_collect fun e _ => keeps_fragment h e _).bind fun _ =>
      (keeps_collect fun e _ => henum e).bind fun _ => keeps_pure _
  exact hdefinitions.bind fun _ => keeps_pure _

theorem Infra.keeps_addTables [IsPreorder Registry R] (hmark : ∀ name, Keeps R (Emit.mark .infra name))
    (stack : Stack) (tables : List Table) : Keeps R (Infra.addTables stack tables) := by
  induction tables generalizing stack with
  | nil => exact keeps_pure stack
  | cons table rest ih =>
    have hadd : Keeps R (Infra.addTable stack table) := keeps_ifFree (hmark _)
    exact hadd.bind ih

/-- The storage description does to the registry what marking types does. -/
theorem Infra.keeps_storage [IsPreorder Registry R] (hmark : ∀ name, Keeps R (Emit.mark .infra name)) :
    Keeps R (Infra.storage c) :=
  (keeps_addTables hmark _ c.tables).bind fun _ => keeps_pure _

theorem Infra.keeps_generate (h : u ≠ .infra) : Keeps (SameMarks u) (Infra.generate o c) := by
  have hresolvers : ∀ table, Keeps (SameMarks u) (Infra.resolvers c table) := fun table =>
    (keeps_fragment h _ _).bind fun _ => keeps_ofExcept _
  have htable : ∀ table, Keeps (SameMarks u) (Infra.tableResources c table) := fun table =>
    (hresolvers table).bind fun _ => keeps_pure _
  have hapi : Keeps (SameMarks u) (Infra.api o c) :=
    (keeps_collect fun table _ => htable table).bind fun _ => keeps_pure _
  exact (keeps_storage fun name => sameMarks_markType h name).bind fun _ => hapi.bind fun _ => keeps_pure _

/-- A target marks names of its own only. -/
theorem Target.keeps_generate {t : Target} (h : u ≠ t) : Keeps (SameMarks u) (t.generate o c) := by
  cases t with
  | rust => exact HostModel.keeps_generate h
  | typescript => exact ClientModel.keeps_generate h
  | graphql => exact ApiSchema.keeps_generate h
  | infra => exact Infra.keeps_generate h

theorem Target.keeps_render {t : Target} (h : u ≠ t) : Keeps (SameMarks u) (t.render o c) :=
  (keeps_generate h).bind fun _ => keeps_ofExcept _

/-- A target that renders yields what it generates. -/
theorem Target.generate_of_render {t : Target} {r r' : Registry} {files : Files}
    (h : t.render o c r = (.ok files, r')) : t.generate o c r = (.ok files, r') := by
  obtain ⟨generated, r₁, hgenerate, hcheck⟩ := Emit.bind_eq_ok.mp h
  have hsame : checkFiles c t generated = .ok files := congrArg Prod.fst hcheck
  cases ((checkFiles_eq_ok_iff c t generated files).mp hsame).1
  cases congrArg Prod.snd hcheck
  exact hgenerate

/-- A target that generates the files that are expected renders them. -/
theorem Target.exists_render {t : Target} {r : Registry}
    (h : (t.generate o c).Ends r fun files _ => files.names = t.expectedFiles c) :
    ∃ files r', t.render o c r = (.ok files, r') := by
  obtain ⟨files, r', hgenerate, hnames⟩ := h
  have hcheck : checkFiles c t files = .ok files :=
    (checkFiles_eq_ok_iff _ _ _ _).mpr ⟨rfl, hnames⟩
  exact ⟨files, r', (Emit.bind_of_eq_ok hgenerate).trans (Prod.ext hcheck rfl)⟩

/-- Every target of a run is rendered from a registry that holds no mark of it. -/
theorem Run.renderAll_isFresh {s : Settings} {staged : List StagedTarget}
    (h : Run.renderAll s o c Target.all .empty = .ok staged) :
    ∃ files : Target → Files, staged = Target.all.map (fun t => ⟨s.outputDir t, files t⟩) ∧
      ∀ t, ∃ r r', IsFresh t r ∧ Target.render o c t r = (.ok (files t), r') := by
  obtain ⟨files, hstaged, hfiles⟩ := renderAll_eq_ok (P := IsFresh)
    (fun t u r hne hr => hr.of_sameMarks (Target.keeps_render hne r)) (by decide)
    (fun t _ => isFresh_empty t) h
  exact ⟨files, hstaged, fun t => hfiles t t.mem_all⟩

end SchemaGen
