import Mathlib.Logic.Relation
import SchemaGen.Proofs.Emission.Declared

/-!
# The walk over embedded types

The walk marks a type when it enters it and skips types that are marked already, so that it ends on
every cycle of references. What makes this enough is an invariant of the marks: an object type that the
walk has marked is done when the walk is, that is, its input variant and every object type that it
references are marked too. The types that were marked before need not be done yet; whoever marked them
is still on the way.

Results:
1. `mem_dependencies_iff`: the dependencies of an entity are the other entities it references.
2. `unmarked_lt`: marking a free object type leaves fewer unmarked ones, which bounds the depth.
3. `embedded_spec`: what a walk declares and marks.
4. `embeddedTypes_spec`: the depth that is used is enough.
-/

namespace SchemaGen

variable {c : Catalog} {e f : Entity}

namespace Catalog

/-- What a name stands for is in the list, also where the names are out of order. -/
theorem mem_entityList {n : String} (h : c.entity? n = some e) : e ∈ c.entityList :=
  List.mem_map.mpr ⟨(n, e), NameMap.mem_pairs_of_lookupPair h, rfl⟩

/-- A dependency stands under some name in the catalog. -/
theorem mem_entityList_of_mem_dependencies (h : f ∈ c.dependencies e) : f ∈ c.entityList := by
  obtain ⟨n, -, hn⟩ := List.mem_filterMap.mp h
  exact mem_entityList hn

/-- An attribute of the first entity references the second. -/
def Refers (c : Catalog) (e f : Entity) : Prop :=
  ∃ a ∈ e.attributes, ∃ n, a.shape.referenced? = some n ∧ c.entity? n = some f

theorem Refers.entity? (h : c.Refers e f) (hc : c.IsSound) : c.entity? f.name = some f := by
  obtain ⟨a, -, n, -, hn⟩ := h
  rw [hc.entity_name n f hn]
  exact hn

/-- The dependencies of an entity are the other entities that it references. -/
theorem mem_dependencies_iff (hc : c.IsSound) :
    f ∈ c.dependencies e ↔ c.Refers e f ∧ f.name ≠ e.name := by
  unfold dependencies referencedNames
  rw [List.mem_filterMap]
  simp only [mem_sortedNames, List.mem_filter, List.mem_filterMap, bne_iff_ne, ne_eq]
  constructor
  · rintro ⟨n, ⟨⟨a, ha, hr⟩, hne⟩, hn⟩
    exact ⟨⟨a, ha, n, hr, hn⟩, hc.entity_name n f hn ▸ hne⟩
  · rintro ⟨⟨a, ha, n, hr, hn⟩, hne⟩
    exact ⟨n, ⟨⟨a, ha, hr⟩, hc.entity_name n f hn ▸ hne⟩, hn⟩

end Catalog

namespace Emission

variable {t : Target} {r r' r₁ r₂ : Registry} {o : ObjectType} {ds : List Declaration}

/-! ## Unmarked types -/

/-- What is marked later is unmarked less. -/
theorem filter_unmarked (h : ∀ n, r.hasType t n = true → r'.hasType t n = true) :
    c.entityList.filter (fun e => !e.isTable && !r'.hasType t e.name) =
      (c.entityList.filter fun e => !e.isTable && !r.hasType t e.name).filter
        fun e => !e.isTable && !r'.hasType t e.name := by
  rw [List.filter_filter]
  refine List.filter_congr fun e _ => ?_
  cases hr : r.hasType t e.name with
  | false => cases e.isTable <;> cases r'.hasType t e.name <;> rfl
  | true => simp [h e.name hr]

theorem unmarked_le (h : ∀ n, r.hasType t n = true → r'.hasType t n = true) :
    unmarked c t r' ≤ unmarked c t r := by
  unfold unmarked
  rw [filter_unmarked h]
  exact List.length_filter_le _ _

/-- Marking a free object type leaves fewer unmarked ones. -/
theorem unmarked_lt (ho : .object o ∈ c.entityList)
    (h : ∀ n, r.hasType t n = true → r'.hasType t n = true) (hfree : r.hasType t o.name = false)
    (hmark : r'.hasType t o.name = true) : unmarked c t r' < unmarked c t r := by
  unfold unmarked
  rw [filter_unmarked h, List.length_filter_lt_length_iff_exists]
  refine ⟨.object o, List.mem_filter.mpr ⟨ho, ?_⟩, ?_⟩
  · simp [Entity.isTable, Entity.table?, Entity.name, hfree]
  · simp [Entity.isTable, Entity.table?, Entity.name, hmark]

/-! ## The invariant of a walk -/

/-- An object type is done when its input variant and the object types it references are marked. -/
structure Done (c : Catalog) (t : Target) (r : Registry) (o : ObjectType) : Prop where
  variant : r.hasType t (Naming.inputVariant o.name) = true
  references : ∀ p, c.Refers (.object o) (.object p) → r.hasType t p.name = true

theorem Done.mono (h : Done c t r o) (hm : ∀ n, r.hasType t n = true → r'.hasType t n = true) :
    Done c t r' o := ⟨hm _ h.variant, fun p hp => hm _ (h.references p hp)⟩

/-- The object types marked since are done. -/
def Walked (c : Catalog) (t : Target) (r r' : Registry) : Prop :=
  ∀ o, c.entity? o.name = some (.object o) → r'.hasType t o.name = true →
    r.hasType t o.name = true ∨ Done c t r' o

theorem Walked.refl (r : Registry) : Walked c t r r := fun _ _ h => .inl h

theorem Walked.trans (h₁ : Walked c t r r₁) (h₂ : Walked c t r₁ r₂)
    (hm : ∀ n, r₁.hasType t n = true → r₂.hasType t n = true) : Walked c t r r₂ := by
  intro o ho hn
  rcases h₂ o ho hn with hn | hd
  · exact (h₁ o ho hn).imp_right fun hd => hd.mono hm
  · exact .inr hd

/-- The type belongs to an object type that is reached from an entity by references. -/
def From (c : Catalog) (e : Entity) (d : TypeDecl) : Prop :=
  ∃ o : ObjectType, c.entity? o.name = some (.object o) ∧
    Relation.TransGen c.Refers e (.object o) ∧ Belongs (.object o) d

theorem From.head (h : c.Refers e f) {d : TypeDecl} (hd : From c f d) : From c e d := by
  obtain ⟨o, ho, hr, hb⟩ := hd
  exact ⟨o, ho, .head h hr, hb⟩

/-- What a part of a walk from an entity has done: it declared types that are reached from there, and
left no type that it marked undone. -/
structure Walk (c : Catalog) (t : Target) (e : Entity) (r : Registry) (ds : List Declaration)
    (r' : Registry) : Prop where
  step : TypeStep t (From c e) r ds r'
  walked : Walked c t r r'

theorem Walk.append {as bs : List Declaration} (h₁ : Walk c t e r as r₁) (h₂ : Walk c t e r₁ bs r₂) :
    Walk c t e r (as ++ bs) r₂ :=
  ⟨h₁.step.append h₂.step, h₁.walked.trans h₂.walked fun _ hn => h₂.step.mark hn⟩

/-- A walk of that depth is deep enough wherever there are fewer unmarked types: it leaves none that it
marked undone, and marks the object types that the entity references. -/
def IsEnough (c : Catalog) (t : Target) (depth : Nat) : Prop :=
  ∀ e r, unmarked c t r < depth →
    Walk c t e r (embedded c t depth e r).1 (embedded c t depth e r).2 ∧
      ∀ p, c.Refers e (.object p) → p.name ≠ e.name →
        (embedded c t depth e r).2.hasType t p.name = true

/-! ## Walking -/

/-- What the walk does at one dependency. -/
def visit (c : Catalog) (t : Target) (depth : Nat) (dep : Entity) (r : Registry) :
    List Declaration × Registry :=
  if dep.isTable then ([], r)
  else match entityModel t dep r with
    | ([], r₁) => ([], r₁)
    | (own, r₁) =>
      let (inner, r₂) := embedded c t depth dep r₁
      let (input, r₃) := inputVariant t dep r₂
      (own ++ inner ++ input, r₃)

theorem embedded_eq_each (c : Catalog) (t : Target) (depth : Nat) (e : Entity) (r : Registry) :
    embedded c t (depth + 1) e r = each (visit c t depth) (c.dependencies e) r := rfl

theorem entityModel_of_marked (h : r.hasType t e.name = true) : entityModel t e r = ([], r) := by
  unfold entityModel once Registry.markType
  rw [if_pos (show r.hasType t (entityDecl e).name = true from h)]
  rfl

theorem entityModel_of_free (h : r.hasType t e.name = false) :
    entityModel t e r = ([.type (entityDecl e)], (r.markType t e.name).2) := by
  unfold entityModel once
  rw [Registry.fst_markType, show r.hasType t (entityDecl e).name = false from h]
  rfl

theorem visit_of_marked {depth : Nat} (h : r.hasType t o.name = true) :
    visit c t depth (.object o) r = ([], r) := by
  unfold visit
  rw [entityModel_of_marked h]
  rfl

theorem visit_of_free {depth : Nat} (h : r.hasType t o.name = false) :
    visit c t depth (.object o) r =
      let own := entityModel t (.object o) r
      let inner := embedded c t depth (.object o) own.2
      let input := inputVariant t (.object o) inner.2
      (own.1 ++ inner.1 ++ input.1, input.2) := by
  unfold visit
  rw [entityModel_of_free h]
  rfl

/-- The walk at a dependency, given what the walk from the dependency does. The dependency is marked
first, so that the walk from it has fewer unmarked types before it. -/
theorem visit_spec (hc : c.IsSound) {depth : Nat} (ih : IsEnough c t depth)
    (hr : unmarked c t r < depth + 1) (h : c.Refers e f) :
    Walk c t e r (visit c t depth f r).1 (visit c t depth f r).2 ∧
      ∀ o, f = .object o → (visit c t depth f r).2.hasType t o.name = true := by
  cases f with
  | table table => exact ⟨⟨.refl r, .refl r⟩, fun o he => by cases he⟩
  | object o =>
    have ho : c.entity? o.name = some (.object o) := h.entity? hc
    cases hm : r.hasType t o.name with
    | true =>
      rw [visit_of_marked hm]
      exact ⟨⟨.refl r, .refl r⟩, fun p he => by cases he; exact hm⟩
    | false =>
      rw [visit_of_free hm]
      dsimp only
      have hself : Relation.TransGen c.Refers e (.object o) := .single h
      have hbelongs : ∀ d, Belongs (.object o) d → From c e d := fun d hd => ⟨o, ho, hself, hd⟩
      -- the dependency is marked
      obtain ⟨hown, hmarked, -⟩ := entityModel_step (t := t) (r := r) (e := .object o)
      have hfirst : ∀ n, (entityModel t (.object o) r).2.hasType t n = true ↔
          r.hasType t n = true ∨ n = o.name := fun n => hasType_once
      generalize entityModel t (.object o) r = own at *
      have hname : own.2.hasType t o.name = true := hmarked o.name (List.mem_singleton.mpr rfl)
      -- the walk goes on from there
      have hlt := unmarked_lt (Catalog.mem_entityList ho) (fun n => hown.mark) hm hname
      obtain ⟨hinner, hdeps⟩ := ih (.object o) own.2 (by omega)
      generalize embedded c t depth (.object o) own.2 = inner at *
      -- the input variant comes last
      obtain ⟨hinput, hvariant, -⟩ := inputVariant_step (t := t) (r := inner.2) (o := o)
      have hlast : ∀ n, (inputVariant t (.object o) inner.2).2.hasType t n = true ↔
          inner.2.hasType t n = true ∨ n = Naming.inputVariant o.name := fun n => hasType_once
      generalize inputVariant t (.object o) inner.2 = input at *
      have hmono : ∀ n, inner.2.hasType t n = true → input.2.hasType t n = true := fun n => hinput.mark
      have hdone : Done c t input.2 o := by
        refine ⟨hvariant _ (List.mem_singleton.mpr rfl), fun p hp => ?_⟩
        by_cases hpo : p.name = o.name
        · rw [hpo]
          exact hmono _ (hinner.step.mark hname)
        · exact hmono _ (hdeps p hp hpo)
      refine ⟨⟨((hown.mono hbelongs).append (hinner.step.mono fun d => From.head h)).append
        (hinput.mono hbelongs), fun p hp hn => ?_⟩, fun p he => ?_⟩
      · rcases (hlast p.name).mp hn with hn | hn
        · rcases hinner.walked p hp hn with hn | hd
          · rcases (hfirst p.name).mp hn with hn | hn
            · exact .inl hn
            · -- an object type of that name is the dependency
              rw [hn, ho] at hp
              cases hp
              exact .inr hdone
          · exact .inr (hd.mono hmono)
        · -- no entity bears the name of an input variant
          have hfree := (hc.free o.name _ ho _ (List.mem_singleton.mpr rfl)).1
          rw [← hn, hp] at hfree
          cases hfree
      · cases he
        exact hmono _ (hinner.step.mark hname)

/-- The walk over dependencies in turn. -/
theorem each_visit_spec (hc : c.IsSound) {depth : Nat} (ih : IsEnough c t depth)
    (deps : List Entity) (hdeps : ∀ f ∈ deps, c.Refers e f) (r : Registry)
    (hr : unmarked c t r < depth + 1) :
    Walk c t e r (each (visit c t depth) deps r).1 (each (visit c t depth) deps r).2 ∧
      ∀ o, .object o ∈ deps → (each (visit c t depth) deps r).2.hasType t o.name = true := by
  induction deps generalizing r with
  | nil => exact ⟨⟨.refl r, .refl r⟩, fun o ho => by cases ho⟩
  | cons f rest ihl =>
    obtain ⟨hhead, hmark⟩ := visit_spec hc ih hr (hdeps f List.mem_cons_self)
    have hle := unmarked_le (c := c) fun n => hhead.step.mark (n := n)
    obtain ⟨hrest, hmarks⟩ := ihl (fun g hg => hdeps g (List.mem_cons_of_mem _ hg))
      (visit c t depth f r).2 (by omega)
    refine ⟨hhead.append hrest, fun o ho => ?_⟩
    rcases List.mem_cons.mp ho with rfl | ho
    · exact hrest.step.mark (hmark o rfl)
    · exact hmarks o ho

/-- Every depth is enough for fewer unmarked types. The induction is on the depth; at each dependency
the walk goes on with a type less to mark. -/
theorem embedded_spec (hc : c.IsSound) (t : Target) (depth : Nat) : IsEnough c t depth := by
  induction depth with
  | zero => exact fun e r hr => absurd hr (Nat.not_lt_zero _)
  | succ depth ih =>
    intro e r hr
    rw [embedded_eq_each]
    obtain ⟨hwalk, hmarks⟩ := each_visit_spec hc ih (c.dependencies e)
      (fun f hf => ((Catalog.mem_dependencies_iff hc).mp hf).1) r hr
    refine ⟨hwalk, fun p hp hne => hmarks p ?_⟩
    exact (Catalog.mem_dependencies_iff hc).mpr ⟨hp, hne⟩

/-- The depth that is used is enough. -/
theorem embeddedTypes_spec (hc : c.IsSound) (e : Entity) (r : Registry) :
    Walk c t e r (embeddedTypes c t e r).1 (embeddedTypes c t e r).2 ∧
      ∀ p, c.Refers e (.object p) → p.name ≠ e.name →
        (embeddedTypes c t e r).2.hasType t p.name = true :=
  embedded_spec hc t _ e r (Nat.lt_succ_self _)

end Emission

end SchemaGen
