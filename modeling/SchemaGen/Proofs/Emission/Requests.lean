import SchemaGen.Proofs.Emission.Fragments

/-!
# Requests for fragments

A request asks for a fragment of an entity. It marks the names that its parts ask for; if it walks, it
also marks the object types that it enters, with their inputs. A walk enters the object types that are
reached through unmarked ones only, so that what a request marks depends on what was marked before.

Results:
1. `spread_embeddedTypes`: what a walk marks was reached through unmarked object types.
2. `render_serves`: what a request does to the registry.
3. `serves_all`: what requests do one after another.
-/

namespace SchemaGen.Emission

open Relation

variable {c : Catalog} {t : Target} {e f : Entity} {r r' r₁ r₂ : Registry} {ds : List Declaration}
  {n : String}

/-! ## What a walk reaches -/

/-- The second entity is an object type that the first one embeds. -/
def Embeds (c : Catalog) (e f : Entity) : Prop := f ∈ c.dependencies e ∧ f.isTable = false

/-- The second entity is an object type that the first one embeds, and is not marked. -/
def Enters (c : Catalog) (t : Target) (r : Registry) (e f : Entity) : Prop :=
  Embeds c e f ∧ r.hasType t f.name = false

/-- The names that a walk marks when it enters an object type. -/
def enteredNames (o : ObjectType) : List String := [o.name, Naming.inputVariant o.name]

/-- What was unmarked later was unmarked before. -/
theorem transGen_enters_mono (h : ∀ n, r.hasType t n = true → r'.hasType t n = true)
    (hp : TransGen (Enters c t r') e f) : TransGen (Enters c t r) e f := by
  refine TransGen.mono (fun a b hab => ⟨hab.1, ?_⟩) _ _ hp
  rw [Bool.eq_false_iff]
  intro hm
  have hfree := hab.2
  rw [h _ hm] at hfree
  cases hfree

/-- What a part of a walk from an entity has marked was reached from there through unmarked ones. -/
structure Spread (c : Catalog) (t : Target) (e : Entity) (r r' : Registry) : Prop where
  mark : ∀ n, r.hasType t n = true → r'.hasType t n = true
  path : ∀ n, r'.hasType t n = true → r.hasType t n = true ∨
    ∃ o : ObjectType, TransGen (Enters c t r) e (.object o) ∧ n ∈ enteredNames o

theorem Spread.refl (r : Registry) : Spread c t e r r := ⟨fun _ h => h, fun _ h => .inl h⟩

theorem Spread.trans (h₁ : Spread c t e r r₁) (h₂ : Spread c t e r₁ r₂) : Spread c t e r r₂ := by
  refine ⟨fun n hn => h₂.mark n (h₁.mark n hn), fun n hn => ?_⟩
  rcases h₂.path n hn with hn | ⟨o, hp, hn⟩
  · exact h₁.path n hn
  · exact .inr ⟨o, transGen_enters_mono h₁.mark hp, hn⟩

/-- The walk at a dependency, given what the walk from the dependency marks. -/
theorem spread_visit {depth : Nat} (ih : ∀ e r, Spread c t e r (embedded c t depth e r).2)
    (h : f ∈ c.dependencies e) (r : Registry) : Spread c t e r (visit c t depth f r).2 := by
  cases f with
  | table table => exact .refl r
  | object o =>
    cases hm : r.hasType t o.name with
    | true =>
      rw [visit_of_marked hm]
      exact .refl r
    | false =>
      rw [visit_of_free hm]
      dsimp only
      have henters : Enters c t r e (.object o) := ⟨⟨h, rfl⟩, hm⟩
      have hown : ∀ n, (entityModel t (.object o) r).2.hasType t n = true ↔
          r.hasType t n = true ∨ n = o.name := fun n => hasType_once
      have hinner := ih (.object o) (entityModel t (.object o) r).2
      have hinput : ∀ r n, (inputVariant t (.object o) r).2.hasType t n = true ↔
          r.hasType t n = true ∨ n = Naming.inputVariant o.name := fun r n => hasType_once
      have hmark : ∀ n, r.hasType t n = true → (entityModel t (.object o) r).2.hasType t n = true :=
        fun n hn => (hown n).mpr (.inl hn)
      refine ⟨fun n hn => (hinput _ n).mpr (.inl (hinner.mark n (hmark n hn))), fun n hn => ?_⟩
      rcases (hinput _ n).mp hn with hn | rfl
      · rcases hinner.path n hn with hn | ⟨o', hp, hn⟩
        · refine ((hown n).mp hn).imp_right fun hn => ⟨o, .single henters, ?_⟩
          rw [hn]
          exact List.mem_cons_self
        · exact .inr ⟨o', .head henters (transGen_enters_mono hmark hp), hn⟩
      · exact .inr ⟨o, .single henters, List.mem_cons_of_mem _ (List.mem_singleton.mpr rfl)⟩

theorem spread_each {depth : Nat} (ih : ∀ e r, Spread c t e r (embedded c t depth e r).2)
    (deps : List Entity) (h : ∀ f ∈ deps, f ∈ c.dependencies e) (r : Registry) :
    Spread c t e r (each (visit c t depth) deps r).2 := by
  induction deps generalizing r with
  | nil => exact .refl r
  | cons f rest ihl =>
    exact (spread_visit ih (h f List.mem_cons_self) r).trans
      (ihl (fun g hg => h g (List.mem_cons_of_mem _ hg)) _)

theorem spread_embedded (c : Catalog) (t : Target) (depth : Nat) (e : Entity) (r : Registry) :
    Spread c t e r (embedded c t depth e r).2 := by
  induction depth generalizing e r with
  | zero => exact .refl r
  | succ depth ih =>
    rw [embedded_eq_each]
    exact spread_each ih _ (fun f hf => hf) r

theorem spread_embeddedTypes (c : Catalog) (t : Target) (e : Entity) (r : Registry) :
    Spread c t e r (embeddedTypes c t e r).2 := spread_embedded c t _ e r

/-! ## One request -/

/-- The fragments that a fragment is rendered from, with itself. -/
def parts (f : Fragment) : List Fragment := f.dependencies ++ [f]

/-- A fragment asked for of an entity. -/
structure Request where
  fragment : Fragment
  entity : Entity
  deriving DecidableEq, Repr

namespace Request

/-- The names that the parts of the fragment ask for. -/
def names (q : Request) : List String := (parts q.fragment).flatMap (marked q.entity)

/-- The operations that are called for, if the fragment has them. -/
def operations (q : Request) : List Operation :=
  if .operations ∈ parts q.fragment then callsFor q.entity else []

/-- The request enters what its entity embeds. -/
def Walks (q : Request) : Prop := .embeddedTypes ∈ parts q.fragment

instance : DecidablePred Walks := fun q => by unfold Walks; infer_instance

/-- The request marks the type of an entity and enters nothing that the entity embeds. -/
def Bares (q : Request) (e : Entity) : Prop :=
  q.entity = e ∧ .entityModel ∈ parts q.fragment ∧ ¬ q.Walks

end Request

/-- What a request has done to the registry. -/
structure Serves (c : Catalog) (t : Target) (q : Request) (r r' : Registry) : Prop where
  mark : ∀ n, r.hasType t n = true → r'.hasType t n = true
  names : ∀ n ∈ q.names, r'.hasType t n = true
  embeds : q.Walks → ∀ o, Embeds c q.entity (.object o) → r'.hasType t o.name = true
  settled : ∀ o, c.entity? o.name = some (.object o) → r'.hasType t o.name = true →
    r.hasType t o.name = true ∨ Done c t r' o ∨ q.Bares (.object o)
  source : ∀ n, r'.hasType t n = true → r.hasType t n = true ∨ n ∈ q.names ∨
    (q.Walks ∧ ∃ o : ObjectType, TransGen (Enters c t r) q.entity (.object o) ∧ n ∈ enteredNames o)
  operations : ∀ n, r'.hasOperation t n = true ↔
    r.hasOperation t n = true ∨ n ∈ q.operations.map Operation.name

/-- A fragment without parts is rendered by itself. -/
theorem render_eq_single {f : Fragment} (h : f.dependencies = []) : render c t e f = single c t e f := by
  funext r
  unfold render
  rw [h, Emit.bind_of_eq_ok (x := Emit.collect (single c t e) []) rfl]
  show Emit.bind (single c t e f) (fun own => Emit.pure ([] ++ own)) r = _
  unfold Emit.bind
  rcases single c t e f r with ⟨fault | own, r'⟩ <;> rfl

/-- A request for operations marks no type. -/
theorem operations_serves (c : Catalog) (t : Target) (e : Entity) (r : Registry) :
    (render c t e .operations).Ends r fun _ r' => Serves c t ⟨.operations, e⟩ r r' := by
  have hwalks : .embeddedTypes ∉ parts .operations := by decide
  rw [render_eq_single rfl]
  refine (operations_ends c t e r).mono fun ds r' h => ?_
  exact ⟨fun n hn => (h.hasType_eq n).trans hn, fun n hn => absurd hn List.not_mem_nil,
    fun hw => absurd hw hwalks, fun o _ hn => .inl ((h.hasType_eq _).symm.trans hn),
    fun n hn => .inl ((h.hasType_eq n).symm.trans hn), fun n => h.hasOperation_iff⟩

section

variable (hc : c.IsSound) (he : c.entity? e.name = some e)

include hc he

/-- A fragment that has the name of an object type has its own type. -/
theorem entityModel_mem_parts {f : Fragment} {o : ObjectType} (ho : e = .object o)
    (hn : o.name ∈ (⟨f, e⟩ : Request).names) : .entityModel ∈ parts f := by
  subst ho
  obtain ⟨g, hg, hn⟩ := List.mem_flatMap.mp hn
  cases g with
  | entityModel => exact hg
  | inputVariant =>
    -- no object type is called like its input
    have hfree := (hc.free o.name _ he _ (List.mem_singleton.mpr rfl)).1
    rw [← List.mem_singleton.mp hn] at hfree
    cases hfree.symm.trans he
  | _ => cases hn

/-- An object type whose name is marked for the types of an entity is that entity. -/
theorem eq_object_of_declares {names : List String} (h : Declares t (Belongs e) names r ds r')
    {o : ObjectType} (ho : c.entity? o.name = some (.object o)) (hn : r'.hasType t o.name = true) :
    r.hasType t o.name = true ∨ o.name ∈ names ∧ e = .object o := by
  rcases h.hasType_iff.mp hn with hn' | hn'
  · exact .inl hn'
  · refine (h.step.name_of_marked hn).imp_right fun hname => ⟨hn', ?_⟩
    exact hc.eq_of_typeName he ho hname (.inl rfl)

/-- A request that declares just the types of its entity. -/
theorem serves_of_declares {f : Fragment} (h : Declares t (Belongs e) (⟨f, e⟩ : Request).names r ds r')
    (hwalks : .embeddedTypes ∉ parts f) (hoperations : .operations ∉ parts f) :
    Serves c t ⟨f, e⟩ r r' := by
  refine ⟨fun n => h.step.mark, h.marks, fun hw => absurd hw hwalks, fun o ho hn => ?_, fun n hn => ?_,
    fun n => ?_⟩
  · refine (eq_object_of_declares hc he h ho hn).imp_right fun ⟨hn, heq⟩ => .inr ⟨heq, ?_, hwalks⟩
    exact entityModel_mem_parts hc he heq hn
  · exact (h.hasType_iff.mp hn).imp_right .inl
  · unfold Registry.hasOperation Request.operations
    rw [h.step.operations, if_neg hoperations]
    simp

/-- A request for a fragment that declares types of its entity. -/
theorem own_serves {f : Fragment} (hf : f ∈ ownFragments) (r : Registry) :
    (render c t e f).Ends r fun _ r' => Serves c t ⟨f, e⟩ r r' := by
  have hparts : ∀ f ∈ ownFragments, f.dependencies = [] ∧ .embeddedTypes ∉ parts f ∧ .operations ∉ parts f := by
    decide
  obtain ⟨hleaf, hwalks, hoperations⟩ := hparts f hf
  have hnames : (⟨f, e⟩ : Request).names = marked e f := by
    unfold Request.names parts
    rw [hleaf, List.nil_append, List.flatMap_singleton]
  rw [render_eq_single hleaf]
  refine (single_declares hc he hf r).mono fun ds r' h => ?_
  exact serves_of_declares hc he (hnames ▸ h) hwalks hoperations

/-- A request for the types that the models render. -/
theorem modelArtifact_serves (r : Registry) :
    (render c t e .modelArtifact).Ends r fun _ r' => Serves c t ⟨.modelArtifact, e⟩ r r' :=
  (modelArtifact_declares hc he r).mono fun _ _ h => serves_of_declares hc he h (by decide) (by decide)

omit he in
/-- The object types that an entity embeds are marked when the walk from it is done. -/
theorem hasType_of_embeds {o : ObjectType} (h : Embeds c e (.object o)) (r : Registry) :
    (embeddedTypes c t e r).2.hasType t o.name = true := by
  obtain ⟨hrefers, hne⟩ := (Catalog.mem_dependencies_iff hc).mp h.1
  exact (embeddedTypes_spec hc e r).2 o hrefers hne

omit he in
/-- A request for embedded types. -/
theorem embeddedTypes_serves (r : Registry) :
    (render c t e .embeddedTypes).Ends r fun _ r' => Serves c t ⟨.embeddedTypes, e⟩ r r' := by
  have hwalks : .embeddedTypes ∈ parts .embeddedTypes := by decide
  have hoperations : .operations ∉ parts .embeddedTypes := by decide
  have hwalk := (embeddedTypes_spec (t := t) hc e r).1
  have hspread := spread_embeddedTypes c t e r
  rw [render_eq_single rfl]
  refine Emit.ends_total ⟨hspread.mark, fun n hn => absurd hn List.not_mem_nil,
    fun _ o ho => hasType_of_embeds hc ho r, fun o ho hn => (hwalk.walked o ho hn).imp_right .inl,
    fun n hn => (hspread.path n hn).imp_right fun hp => .inr ⟨hwalks, hp⟩, fun n => ?_⟩
  unfold Registry.hasOperation Request.operations
  rw [hwalk.step.operations, if_neg hoperations]
  simp

/-- A request for everything that the API schema needs. -/
theorem apiSchemaEntity_serves (r : Registry) :
    (render c t e .apiSchemaEntity).Ends r fun _ r' => Serves c t ⟨.apiSchemaEntity, e⟩ r r' := by
  have hwalks : .embeddedTypes ∈ parts .apiSchemaEntity := by decide
  have hoperations : .operations ∈ parts .apiSchemaEntity := by decide
  have hnames : (⟨.apiSchemaEntity, e⟩ : Request).names = ownFragments.flatMap (marked e) := by
    show marked e .embeddedTypes ++ (ownFragments ++ [Fragment.operations, .apiSchemaEntity]).flatMap (marked e) = _
    rw [List.flatMap_append]
    exact List.append_nil _
  obtain ⟨hwalk, hdeps⟩ := embeddedTypes_spec (t := t) hc e r
  have hspread := spread_embeddedTypes c t e r
  refine (apiSchemaEntity_declares hc he r).mono fun ds r' ⟨own, ops, r₁, _, hown, hops⟩ => ?_
  have hentered := entered_of_walk hc he hwalk hdeps hown
  have hmark : ∀ n, r₁.hasType t n = true → r'.hasType t n = true := fun n hn => (hops.hasType_eq n).trans hn
  refine ⟨fun n hn => hmark n (hown.step.mark (hspread.mark n hn)), fun n hn => ?_,
    fun _ o ho => hmark _ (hown.step.mark (hasType_of_embeds hc ho r)), fun o ho hn => ?_, fun n hn => ?_,
    fun n => ?_⟩
  · rw [hnames] at hn
    exact hmark n (hown.marks n hn)
  · rw [hops.hasType_eq] at hn
    exact (hentered.walked o ho hn).imp_right fun hd => .inl (hd.mono hmark)
  · rw [hops.hasType_eq, hown.hasType_iff] at hn
    rcases hn with hn | hn
    · exact (hspread.path n hn).imp_right fun hp => .inr ⟨hwalks, hp⟩
    · exact .inr (.inl (hnames ▸ hn))
  · rw [hops.hasOperation_iff]
    unfold Registry.hasOperation Request.operations
    rw [hentered.step.operations, if_pos hoperations]

end

/-- Every request can be rendered. -/
theorem render_serves {q : Request} (hc : c.IsSound) (he : q.entity ∈ c.entityList) (r : Registry) :
    (render c t q.entity q.fragment).Ends r fun _ r' => Serves c t q r r' := by
  obtain ⟨f, e⟩ := q
  have he := hc.entity?_of_mem he
  cases f with
  | embeddedTypes => exact embeddedTypes_serves hc r
  | operations => exact operations_serves c t e r
  | modelArtifact => exact modelArtifact_serves hc he r
  | apiSchemaEntity => exact apiSchemaEntity_serves hc he r
  | _ => exact own_serves hc he (by simp [ownFragments]) r

/-! ## Many requests -/

/-- The registry that requests leave behind one after another. -/
def serveAll (c : Catalog) (t : Target) (requests : List Request) (r : Registry) : Registry :=
  requests.foldl (fun r q => (render c t q.entity q.fragment r).2) r

theorem serveAll_append (first rest : List Request) (r : Registry) :
    serveAll c t (first ++ rest) r = serveAll c t rest (serveAll c t first r) := List.foldl_append

/-- What requests have done to the registry one after another. -/
structure ServesAll (c : Catalog) (t : Target) (requests : List Request) (r r' : Registry) : Prop where
  mark : ∀ n, r.hasType t n = true → r'.hasType t n = true
  names : ∀ q ∈ requests, ∀ n ∈ q.names, r'.hasType t n = true
  embeds : ∀ q ∈ requests, q.Walks → ∀ o, Embeds c q.entity (.object o) → r'.hasType t o.name = true
  settled : ∀ o, c.entity? o.name = some (.object o) → r'.hasType t o.name = true →
    r.hasType t o.name = true ∨ Done c t r' o ∨ ∃ q ∈ requests, q.Bares (.object o)
  source : ∀ n, r'.hasType t n = true → r.hasType t n = true ∨ (∃ q ∈ requests, n ∈ q.names) ∨
    ∃ q ∈ requests, q.Walks ∧
      ∃ o : ObjectType, TransGen (Enters c t r) q.entity (.object o) ∧ n ∈ enteredNames o
  operations : ∀ n, r'.hasOperation t n = true ↔
    r.hasOperation t n = true ∨ ∃ q ∈ requests, n ∈ q.operations.map Operation.name

theorem ServesAll.nil (r : Registry) : ServesAll c t [] r r :=
  ⟨fun _ hn => hn, fun _ hq => absurd hq List.not_mem_nil, fun _ hq => absurd hq List.not_mem_nil,
    fun _ _ hn => .inl hn, fun _ hn => .inl hn, fun _ => by simp⟩

theorem ServesAll.cons {q : Request} {rest : List Request} (h : Serves c t q r r₁)
    (hrest : ServesAll c t rest r₁ r') : ServesAll c t (q :: rest) r r' := by
  refine ⟨fun n hn => hrest.mark n (h.mark n hn), ?_, ?_, fun o ho hn => ?_, fun n hn => ?_, fun n => ?_⟩
  · rw [List.forall_mem_cons]
    exact ⟨fun n hn => hrest.mark n (h.names n hn), hrest.names⟩
  · rw [List.forall_mem_cons]
    exact ⟨fun hw o ho => hrest.mark _ (h.embeds hw o ho), hrest.embeds⟩
  · rw [List.exists_mem_cons_iff]
    rcases hrest.settled o ho hn with hn | hd | hb
    · rcases h.settled o ho hn with hn | hd | hb
      · exact .inl hn
      · exact .inr (.inl (hd.mono hrest.mark))
      · exact .inr (.inr (.inl hb))
    · exact .inr (.inl hd)
    · exact .inr (.inr (.inr hb))
  · rw [List.exists_mem_cons_iff, List.exists_mem_cons_iff]
    rcases hrest.source n hn with hn | hn | ⟨p, hp, hw, o, hpath, hn⟩
    · rcases h.source n hn with hn | hn | hn
      · exact .inl hn
      · exact .inr (.inl (.inl hn))
      · exact .inr (.inr (.inl hn))
    · exact .inr (.inl (.inr hn))
    · -- what is entered later was unmarked before, too
      exact .inr (.inr (.inr ⟨p, hp, hw, o, transGen_enters_mono h.mark hpath, hn⟩))
  · rw [hrest.operations, h.operations, List.exists_mem_cons_iff, or_assoc]

theorem serves_all (hc : c.IsSound) (requests : List Request)
    (he : ∀ q ∈ requests, q.entity ∈ c.entityList) (r : Registry) :
    ServesAll c t requests r (serveAll c t requests r) := by
  induction requests generalizing r with
  | nil => exact .nil r
  | cons q rest ih =>
    obtain ⟨ds, r₁, hrun, hserves⟩ := render_serves (t := t) hc (he q List.mem_cons_self) r
    have hrest := ih (fun p hp => he p (List.mem_cons_of_mem _ hp)) r₁
    have hfold : serveAll c t (q :: rest) r = serveAll c t rest r₁ := by
      unfold serveAll
      rw [List.foldl_cons, hrun]
    rw [hfold]
    exact .cons hserves hrest

end SchemaGen.Emission
