import SchemaGen.Proofs.Emission.Embedded

/-!
# Emission at most once

A fragment marks a symbol before it declares it, and declares nothing that was marked before. This needs
nothing of the catalog. A successful step marks just the symbols that it declares, each of which was free;
a step that fails declares nothing, but keeps its marks, so that nothing is ever unmarked. Over any sequence
of requests, for whatever targets and from whatever registry, no symbol is declared twice.

Results:
1. `Disciplined.bind`, `disciplined_collect`: steps one after another.
2. `disciplined_single`, `disciplined_renderNamed`: every fragment follows the rule.
3. `fulfil_spec`: what requests do one after another, failed ones included.
4. `declared_once`: no symbol is declared twice.
-/

namespace SchemaGen

/-- A name that a target declares: types and operations are apart. -/
inductive Symbol where
  | type (t : Target) (name : String)
  | operation (t : Target) (name : String)
  deriving DecidableEq, Repr

/-- Whether a symbol is marked. -/
def Registry.isMarked (r : Registry) : Symbol → Bool
  | .type t name => r.hasType t name
  | .operation t name => r.hasOperation t name

/-- The symbol that a declaration introduces for a target. -/
def Declaration.symbol (t : Target) : Declaration → Symbol
  | .type d => .type t d.name
  | .operation o => .operation t o.name

namespace Emission

variable {c : Catalog} {t : Target} {r r₁ r₂ : Registry} {ds as bs : List Declaration}

/-- Nothing is unmarked. -/
def Grows (r r' : Registry) : Prop := ∀ s, r.isMarked s = true → r'.isMarked s = true

theorem Grows.trans (h₁ : Grows r r₁) (h₂ : Grows r₁ r₂) : Grows r r₂ := fun s hs => h₂ s (h₁ s hs)

/-- The declared symbols are new, and with what was marked before they are what is marked after. -/
structure Introduces (t : Target) (r : Registry) (ds : List Declaration) (r' : Registry) : Prop where
  marks : ∀ s, r'.isMarked s = true ↔ r.isMarked s = true ∨ s ∈ ds.map (Declaration.symbol t)
  free : ∀ s ∈ ds.map (Declaration.symbol t), r.isMarked s = false
  once : (ds.map (Declaration.symbol t)).Nodup

namespace Introduces

theorem grows (h : Introduces t r ds r₁) : Grows r r₁ := fun s hs => (h.marks s).mpr (.inl hs)

theorem nil (r : Registry) : Introduces t r [] r := ⟨by simp, by simp, List.nodup_nil⟩

theorem append (h₁ : Introduces t r as r₁) (h₂ : Introduces t r₁ bs r₂) : Introduces t r (as ++ bs) r₂ := by
  -- what is free after the first step was free before it, and is not declared by it
  have hfree : ∀ s ∈ bs.map (Declaration.symbol t),
      r.isMarked s = false ∧ s ∉ as.map (Declaration.symbol t) := by
    intro s hs
    have hnot := h₂.free s hs
    rw [Bool.eq_false_iff, ne_eq, h₁.marks, not_or] at hnot
    exact ⟨Bool.eq_false_iff.mpr hnot.1, hnot.2⟩
  constructor
  · intro s
    rw [h₂.marks, h₁.marks, List.map_append, List.mem_append, or_assoc]
  · intro s hs
    rw [List.map_append, List.mem_append] at hs
    exact hs.elim (h₁.free s) fun hs => (hfree s hs).1
  · rw [List.map_append, List.nodup_append]
    refine ⟨h₁.once, h₂.once, fun a ha b hb hab => ?_⟩
    exact (hfree b hb).2 (hab ▸ ha)

end Introduces

/-- The outcome of a step: declarations of symbols that were free, or a fault that keeps the marks. -/
inductive Yields (t : Target) (r : Registry) : Except RenderFault (List Declaration) → Registry → Prop
  | ok {ds : List Declaration} {r' : Registry} : Introduces t r ds r' → Yields t r (.ok ds) r'
  | error {fault : RenderFault} {r' : Registry} : Grows r r' → Yields t r (.error fault) r'

/-- The step yields, together with what was declared before it. -/
def Continues (t : Target) (before : List Declaration) (x : Emit (List Declaration)) : Prop :=
  ∀ r r₁, Introduces t r before r₁ → Yields t r (x r₁).1 (x r₁).2

/-- The step declares symbols that are free, and marks them. -/
def Disciplined (t : Target) (x : Emit (List Declaration)) : Prop := ∀ r, Yields t r (x r).1 (x r).2

theorem continues_pure (ds : List Declaration) : Continues t ds (Pure.pure ds) := fun _ _ h => .ok h

theorem Continues.disciplined {x : Emit (List Declaration)} (h : Continues t [] x) : Disciplined t x :=
  fun r => h r r (.nil r)

theorem Disciplined.bind {x : Emit (List Declaration)} {f : List Declaration → Emit (List Declaration)}
    (hx : Disciplined t x) (hf : ∀ bs, Continues t (as ++ bs) (f bs)) : Continues t as (x >>= f) := by
  intro r r₁ h
  have hstep := hx r₁
  show Yields t r (Emit.bind x f r₁).1 (Emit.bind x f r₁).2
  unfold Emit.bind
  generalize x r₁ = outcome at hstep
  rcases outcome with ⟨fault | bs, r₂⟩
  · cases hstep with
    | error hgrows => exact .error (h.grows.trans hgrows)
  · cases hstep with
    | ok hintroduces => exact hf bs r r₂ (h.append hintroduces)

theorem disciplined_collect {α : Type} {step : α → Emit (List Declaration)} {members : List α}
    (h : ∀ a ∈ members, Disciplined t (step a)) : Disciplined t (Emit.collect step members) := by
  induction members with
  | nil => exact fun r => .ok (.nil r)
  | cons a rest ih =>
    have hrest := ih fun b hb => h b (List.mem_cons_of_mem _ hb)
    exact Continues.disciplined ((h a List.mem_cons_self).bind fun _ => hrest.bind fun _ => continues_pure _)

/-! ## One symbol -/

theorem isMarked_markType (name : String) (r : Registry) (s : Symbol) :
    (r.markType t name).2.isMarked s = true ↔ r.isMarked s = true ∨ s = .type t name := by
  cases s with
  | type u n =>
    show (r.markType t name).2.hasType u n = true ↔ _
    rw [Registry.hasType_markType, Bool.or_eq_true, decide_eq_true_iff, Symbol.type.injEq, or_comm]
    rfl
  | operation u n =>
    have hsame : (r.markType t name).2.operations = r.operations := by
      unfold Registry.markType
      split <;> rfl
    show (r.markType t name).2.hasOperation u n = true ↔ _
    unfold Registry.hasOperation
    rw [hsame]
    simp [Registry.isMarked, Registry.hasOperation]

theorem isMarked_markOperation (name : String) (r : Registry) (s : Symbol) :
    (r.markOperation t name).2.isMarked s = true ↔ r.isMarked s = true ∨ s = .operation t name := by
  unfold Registry.markOperation
  split
  · next h =>
    refine ⟨.inl, ?_⟩
    rintro (hs | rfl)
    · exact hs
    · exact h
  · cases s with
    | type u n => simp [Registry.isMarked, Registry.hasType]
    | operation u n => simp [Registry.isMarked, Registry.hasOperation, or_comm]

/-- A declaration whose symbol is marked if it was free. -/
theorem introduces_of_mark {d : Declaration} {marked : Bool × Registry}
    (hfree : marked.1 = !r.isMarked (d.symbol t))
    (hmarks : ∀ s, marked.2.isMarked s = true ↔ r.isMarked s = true ∨ s = d.symbol t) :
    Introduces t r (if marked.1 then [d] else []) marked.2 := by
  cases hm : r.isMarked (d.symbol t) with
  | true =>
    rw [hfree, hm]
    refine ⟨fun s => ?_, by simp, List.nodup_nil⟩
    rw [hmarks]
    -- the symbol was marked, so that no mark is new
    exact ⟨fun hs => hs.elim .inl fun hs => .inl (hs ▸ hm),
      fun hs => .inl (hs.resolve_right List.not_mem_nil)⟩
  | false =>
    rw [hfree, hm]
    refine ⟨fun s => ?_, fun s hs => ?_, List.nodup_singleton _⟩
    · rw [hmarks]
      simp
    · rw [List.mem_singleton.mp hs]
      exact hm

theorem introduces_once (decl : TypeDecl) (r : Registry) :
    Introduces t r (once t decl r).1 (once t decl r).2 :=
  introduces_of_mark (d := .type decl) (Registry.fst_markType t decl.name r) (isMarked_markType decl.name r)

theorem grows_markType (name : String) (r : Registry) : Grows r (r.markType t name).2 :=
  fun s hs => (isMarked_markType name r s).mpr (.inl hs)

/-- A type that is worked out on the way bears the name under which it was marked. -/
theorem disciplined_onceOf {name : String} {decl : Except RenderFault TypeDecl}
    (hname : ∀ d, decl = .ok d → d.name = name) : Disciplined t (onceOf t name decl) := by
  intro r
  cases decl with
  | ok d =>
    obtain rfl : d.name = name := hname d rfl
    have hsame : onceOf t d.name (.ok d) r = (.ok (once t d r).1, (once t d r).2) := by
      unfold onceOf once
      cases (r.markType t d.name).1 <;> rfl
    rw [hsame]
    exact .ok (introduces_once d r)
  | error fault =>
    unfold onceOf
    split
    · exact .error (grows_markType name r)
    · next hfree =>
      rw [Registry.fst_markType, Bool.not_eq_true, Bool.not_eq_false'] at hfree
      refine .ok ⟨fun s => ?_, by simp, List.nodup_nil⟩
      rw [isMarked_markType]
      exact ⟨fun hs => hs.elim .inl fun hs => .inl (hs ▸ hfree),
        fun hs => .inl (hs.resolve_right List.not_mem_nil)⟩

/-! ## Fragments -/

theorem introduces_inputVariant (e : Entity) (r : Registry) :
    Introduces t r (inputVariant t e r).1 (inputVariant t e r).2 := by
  cases e with
  | table table => exact .nil r
  | object o => exact introduces_once _ r

theorem introduces_each {f : Entity → Registry → List Declaration × Registry}
    (hf : ∀ e r, Introduces t r (f e r).1 (f e r).2) (entities : List Entity) (r : Registry) :
    Introduces t r (each f entities r).1 (each f entities r).2 := by
  induction entities generalizing r with
  | nil => exact .nil r
  | cons e rest ih => exact (hf e r).append (ih _)

/-- A visit declares what it enters, what is entered from there, and the input. -/
theorem introduces_visit {depth : Nat}
    (h : ∀ e r, Introduces t r (embedded c t depth e r).1 (embedded c t depth e r).2) (dep : Entity)
    (r : Registry) : Introduces t r (visit c t depth dep r).1 (visit c t depth dep r).2 := by
  cases dep with
  | table table => exact .nil r
  | object o =>
    cases hm : r.hasType t o.name with
    | true =>
      rw [visit_of_marked hm]
      exact .nil r
    | false =>
      rw [visit_of_free hm]
      exact ((introduces_once _ r).append (h _ _)).append (introduces_inputVariant _ _)

/-- A walk declares what its visits do. The induction is on the depth. -/
theorem introduces_embedded (depth : Nat) (e : Entity) (r : Registry) :
    Introduces t r (embedded c t depth e r).1 (embedded c t depth e r).2 := by
  induction depth generalizing e r with
  | zero => exact .nil r
  | succ depth ih =>
    rw [embedded_eq_each]
    exact introduces_each (introduces_visit ih) _ r

theorem introduces_responseEnvelopes (table : Table) (r : Registry) :
    Introduces t r (responseEnvelopes t table r).1 (responseEnvelopes t table r).2 :=
  (introduces_once _ r).append (introduces_once _ _)

theorem introduces_freeOperations (ops : List Operation) (r : Registry) :
    Introduces t r (freeOperations t ops r).1 (freeOperations t ops r).2 := by
  induction ops generalizing r with
  | nil => exact .nil r
  | cons op rest ih =>
    have hstep := introduces_of_mark (t := t) (r := r) (d := .operation op) (fst_markOperation op.name r)
      (isMarked_markOperation op.name r)
    have happend := hstep.append (ih (r.markOperation t op.name).2)
    unfold freeOperations
    dsimp only
    cases hfree : (r.markOperation t op.name).1 <;> rw [hfree] at happend <;> exact happend

theorem disciplined_crudInputs (table : Table) : Disciplined t (crudInputs t table) := by
  have honce : ∀ decl, Disciplined t (Emit.total (once t decl)) := fun decl r => .ok (introduces_once decl r)
  have hdelete : Disciplined t (onceOf t (Naming.deleteInput table.name) (deleteDecl table)) :=
    disciplined_onceOf fun d hd => (deleteDecl_eq_ok hd).1
  exact Continues.disciplined ((honce _).bind fun _ => (honce _).bind fun _ => hdelete.bind fun _ =>
    continues_pure _)

theorem disciplined_queryInputs (table : Table) : Disciplined t (queryInputs t table) :=
  disciplined_collect fun _ _ => disciplined_onceOf fun _ hd => (queryDecl_eq_ok hd).1

theorem disciplined_forTable {e : Entity} {f : Table → Emit (List Declaration)}
    (hf : ∀ table, Disciplined t (f table)) : Disciplined t (forTable e f) := by
  cases e with
  | table table => exact hf table
  | object o => exact fun r => .ok (.nil r)

theorem disciplined_single (e : Entity) (f : Fragment) : Disciplined t (single c t e f) := by
  cases f with
  | entityModel => exact fun r => .ok (introduces_once _ r)
  | inputVariant => exact fun r => .ok (introduces_inputVariant e r)
  | embeddedTypes => exact fun r => .ok (introduces_embedded _ e r)
  | crudInputs => exact disciplined_forTable disciplined_crudInputs
  | queryInputs => exact disciplined_forTable disciplined_queryInputs
  | responseEnvelopes => exact disciplined_forTable fun table r => .ok (introduces_responseEnvelopes table r)
  | operations => exact disciplined_forTable fun table r => .ok (introduces_freeOperations _ r)
  | modelArtifact => exact fun r => .ok (.nil r)
  | apiSchemaEntity => exact fun r => .ok (.nil r)

theorem disciplined_render (e : Entity) (f : Fragment) : Disciplined t (render c t e f) := by
  have hparts : Disciplined t (Emit.collect (single c t e) f.dependencies) :=
    disciplined_collect fun g _ => disciplined_single e g
  exact Continues.disciplined (hparts.bind fun _ => (disciplined_single e f).bind fun _ => continues_pure _)

/-- Every fragment follows the rule; where there is none of that name, nothing is done. -/
theorem disciplined_renderNamed (e : Entity) (name : String) : Disciplined t (renderNamed c t e name) := by
  unfold renderNamed
  split
  · next f _ => exact disciplined_render e f
  · exact fun r => .error fun _ hs => hs

/-! ## Many requests -/

/-- A fragment asked for by name, of an entity and for a target. -/
structure Demand where
  target : Target
  entity : Entity
  fragment : String
  deriving DecidableEq, Repr

/-- What demands for fragments yield one after another, each for its target, and the registry in the end. -/
def fulfil (c : Catalog) : List Demand → Registry →
    List (Target × Except RenderFault (List Declaration)) × Registry
  | [], r => ([], r)
  | q :: rest, r =>
    let (outcome, r₁) := renderNamed c q.target q.entity q.fragment r
    let (later, r₂) := fulfil c rest r₁
    ((q.target, outcome) :: later, r₂)

/-- The symbols that a demand declares; one that failed declares none. -/
def symbolsOf (t : Target) : Except RenderFault (List Declaration) → List Symbol
  | .ok ds => ds.map (Declaration.symbol t)
  | .error _ => []

/-- The symbols that demands declare. -/
def declared (outcomes : List (Target × Except RenderFault (List Declaration))) : List Symbol :=
  outcomes.flatMap fun outcome => symbolsOf outcome.1 outcome.2

/-- What demands have done one after another. -/
structure Fulfils (r : Registry) (symbols : List Symbol) (r' : Registry) : Prop where
  grows : Grows r r'
  free : ∀ s ∈ symbols, r.isMarked s = false
  marked : ∀ s ∈ symbols, r'.isMarked s = true
  once : symbols.Nodup

theorem Yields.fulfils {outcome : Except RenderFault (List Declaration)} (h : Yields t r outcome r₁) :
    Fulfils r (symbolsOf t outcome) r₁ := by
  cases h with
  | ok h => exact ⟨h.grows, h.free, fun s hs => (h.marks s).mpr (.inr hs), h.once⟩
  | error h => exact ⟨h, fun _ hs => absurd hs List.not_mem_nil, fun _ hs => absurd hs List.not_mem_nil,
      List.nodup_nil⟩

theorem Fulfils.append {first later : List Symbol} (h₁ : Fulfils r first r₁) (h₂ : Fulfils r₁ later r₂) :
    Fulfils r (first ++ later) r₂ := by
  -- what is still free later was not marked before
  have hfree : ∀ s ∈ later, r₁.isMarked s ≠ true := fun s hs => by
    rw [h₂.free s hs]
    exact Bool.false_ne_true
  refine ⟨h₁.grows.trans h₂.grows, fun s hs => ?_, fun s hs => ?_, ?_⟩
  · rcases List.mem_append.mp hs with hs | hs
    · exact h₁.free s hs
    · exact Bool.eq_false_iff.mpr fun hm => hfree s hs (h₁.grows s hm)
  · rcases List.mem_append.mp hs with hs | hs
    · exact h₂.grows s (h₁.marked s hs)
    · exact h₂.marked s hs
  · rw [List.nodup_append]
    exact ⟨h₁.once, h₂.once, fun a ha b hb hab => hfree b hb (hab ▸ h₁.marked a ha)⟩

theorem fulfil_spec (c : Catalog) (demands : List Demand) (r : Registry) :
    Fulfils r (declared (fulfil c demands r).1) (fulfil c demands r).2 := by
  induction demands generalizing r with
  | nil => exact ⟨fun _ hs => hs, fun _ hs => absurd hs List.not_mem_nil,
      fun _ hs => absurd hs List.not_mem_nil, List.nodup_nil⟩
  | cons q rest ih =>
    have hfirst := disciplined_renderNamed (c := c) (t := q.target) q.entity q.fragment r
    exact hfirst.fulfils.append (ih _)

/-- Whatever is asked for, and whatever fails on the way, no symbol is declared twice, none is declared
that was marked before, and what is declared or was marked is marked in the end. -/
theorem declared_once (c : Catalog) (demands : List Demand) (r : Registry) :
    (declared (fulfil c demands r).1).Nodup ∧
      (∀ s ∈ declared (fulfil c demands r).1,
        r.isMarked s = false ∧ (fulfil c demands r).2.isMarked s = true) ∧
      ∀ s, r.isMarked s = true → (fulfil c demands r).2.isMarked s = true := by
  have h := fulfil_spec c demands r
  exact ⟨h.once, fun s hs => ⟨h.free s hs, h.marked s hs⟩, h.grows⟩

end Emission

end SchemaGen
