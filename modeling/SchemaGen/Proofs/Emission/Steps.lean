import SchemaGen.Proofs.Checks
import SchemaGen.Target.Options

/-!
# Steps of emission

A step of emission marks what it declares. Two relations say what a step has done to the registry:

* `TypeStep`: types were declared, each under a name that was free, and just their names were marked
  (`TypeMarks`);
* `OperationStep`: of some operations those were declared that came first under free names, and all were
  marked.

Results:
1. `Ends.bind`, `collect_cons_eq_ok`: successful steps one after another.
2. `EndsIf.bind`: steps that succeed if a check does.
3. `fst_collect_ifFree`: steps that are taken if a name is free.
4. `TypeMarks.append`: two steps that declare types make one.
5. `once_step`, `onceOf_ends`: declaring one type.
6. `freeOperations_step`: declaring operations.
-/

namespace SchemaGen

namespace Emit

variable {α β : Type} {x : Emit α} {f : α → Emit β} {r : Registry}

/-- The step succeeds, with a value and a registry of which `Q` holds. -/
def Ends (x : Emit α) (r : Registry) (Q : α → Registry → Prop) : Prop :=
  ∃ a r', x r = (.ok a, r') ∧ Q a r'

theorem Ends.mono {P Q : α → Registry → Prop} (h : x.Ends r P) (hq : ∀ a r', P a r' → Q a r') :
    x.Ends r Q := by
  obtain ⟨a, r', hx, hp⟩ := h
  exact ⟨a, r', hx, hq a r' hp⟩

theorem Ends.of_eq_ok {Q : α → Registry → Prop} (h : x.Ends r Q) {a : α} {r' : Registry}
    (hx : x r = (.ok a, r')) : Q a r' := by
  obtain ⟨_, _, hrun, hq⟩ := h
  cases hx.symm.trans hrun
  exact hq

/-- A step goes on with the value of a step that succeeds. -/
theorem bind_of_eq_ok {a : α} {r' : Registry} (h : x r = (.ok a, r')) : (x >>= f) r = f a r' := by
  show Emit.bind x f r = _
  unfold Emit.bind
  rw [h]

/-- A step that only works on the value of a step succeeds when that one does. -/
theorem fst_bind_pure (g : α → β) :
    ((x >>= fun a => Pure.pure (g a)) r).1 = (x r).1.map g := by
  show (Emit.bind x _ r).1 = _
  unfold Emit.bind
  rcases x r with ⟨fault | a, r'⟩ <;> rfl

theorem Ends.bind {P : α → Registry → Prop} {Q : β → Registry → Prop} (h : x.Ends r P)
    (hf : ∀ a r', P a r' → (f a).Ends r' Q) : (x >>= f).Ends r Q := by
  obtain ⟨a, r', hx, hp⟩ := h
  obtain ⟨b, r'', hb, hq⟩ := hf a r' hp
  exact ⟨b, r'', (bind_of_eq_ok hx).trans hb, hq⟩

theorem ends_pure {a : α} {Q : α → Registry → Prop} (h : Q a r) : (Pure.pure a : Emit α).Ends r Q :=
  ⟨a, r, rfl, h⟩

theorem ends_total {g : Registry → α × Registry} {Q : α → Registry → Prop} (h : Q (g r).1 (g r).2) :
    (Emit.total g).Ends r Q := ⟨_, _, rfl, h⟩

theorem bind_eq_ok {b : β} {r' : Registry} :
    (x >>= f) r = (.ok b, r') ↔ ∃ a r₁, x r = (.ok a, r₁) ∧ f a r₁ = (.ok b, r') := by
  show Emit.bind x f r = _ ↔ _
  unfold Emit.bind
  rcases x r with ⟨e | a, r₁⟩
  · constructor
    · intro h
      cases h
    · rintro ⟨a, r₂, h, -⟩
      cases h
  · constructor
    · intro h
      exact ⟨a, r₁, rfl, h⟩
    · rintro ⟨a', r₂, h, h'⟩
      cases h
      exact h'

/-- The step succeeds exactly when the check does, and fails with the fault of the check; if it succeeds,
`Q` holds of its value and of the registry. -/
def EndsIf (x : Emit α) (r : Registry) (check : Except RenderFault Unit)
    (Q : α → Registry → Prop) : Prop :=
  verdict (x r).1 = check ∧ ∀ a r', x r = (.ok a, r') → Q a r'

theorem Ends.endsIf {Q : α → Registry → Prop} (h : x.Ends r Q) : x.EndsIf r (.ok ()) Q := by
  refine ⟨?_, fun a r' hx => h.of_eq_ok hx⟩
  obtain ⟨a, r', hx, -⟩ := h
  rw [hx]
  rfl

/-- A step whose check passes succeeds. -/
theorem EndsIf.ends {check : Except RenderFault Unit} {Q : α → Registry → Prop}
    (h : x.EndsIf r check Q) (hcheck : check = .ok ()) : x.Ends r Q := by
  obtain ⟨a, ha⟩ := verdict_eq_ok.mp (h.1.trans hcheck)
  exact ⟨a, (x r).2, Prod.ext ha rfl, h.2 a _ (Prod.ext ha rfl)⟩

theorem EndsIf.mono {check : Except RenderFault Unit} {P Q : α → Registry → Prop}
    (h : x.EndsIf r check P) (hq : ∀ a r', P a r' → Q a r') : x.EndsIf r check Q :=
  ⟨h.1, fun a r' hx => hq a r' (h.2 a r' hx)⟩

theorem EndsIf.ran {check : Except RenderFault Unit} {Q : α → Registry → Prop} (h : x.EndsIf r check Q) :
    x.EndsIf r check fun a r' => x r = (.ok a, r') ∧ Q a r' :=
  ⟨h.1, fun a r' hx => ⟨hx, h.2 a r' hx⟩⟩

/-- A fault of the first step is that of both; otherwise the second one decides. -/
theorem EndsIf.bind {check rest : Except RenderFault Unit} {P : α → Registry → Prop}
    {Q : β → Registry → Prop} (h : x.EndsIf r check P) (hf : ∀ a r', P a r' → (f a).EndsIf r' rest Q) :
    (x >>= f).EndsIf r (check >>= fun _ => rest) Q := by
  obtain ⟨hcheck, hp⟩ := h
  rw [← hcheck]
  rcases hx : x r with ⟨fault | a, r'⟩
  · have hrun : (x >>= f) r = (.error fault, r') := by
      show Emit.bind x f r = _
      unfold Emit.bind
      rw [hx]
    unfold EndsIf
    rw [hrun]
    exact ⟨rfl, fun b r'' hb => by cases hb⟩
  · unfold EndsIf
    rw [bind_of_eq_ok hx]
    exact hf a r' (hp a r' hx)

/-- A step that only works on the value of a step follows the same check. -/
theorem EndsIf.bind_pure {check : Except RenderFault Unit} {P : α → Registry → Prop}
    {Q : β → Registry → Prop} {g : α → β} (h : x.EndsIf r check P) (hq : ∀ a r', P a r' → Q (g a) r') :
    (x >>= fun a => Pure.pure (g a)).EndsIf r check Q := by
  have hbind : (x >>= fun a => Pure.pure (g a)).EndsIf r (check >>= fun _ => .ok ()) Q :=
    h.bind fun a r' hp => (ends_pure (hq a r' hp)).endsIf
  have hunit : (check >>= fun _ => .ok ()) = check := by cases check <;> rfl
  rwa [hunit] at hbind

theorem endsIf_ofExcept (y : Except RenderFault α) :
    (Emit.ofExcept y).EndsIf r (verdict y) fun a r' => y = .ok a ∧ r' = r := by
  refine ⟨rfl, fun a r' h => ?_⟩
  cases h
  exact ⟨rfl, rfl⟩

/-- What a collection yields is put together from what its members yield, one after another. -/
theorem collect_cons_eq_ok {step : α → Emit (List β)} {a : α} {rest : List α} {zs : List β}
    {r' : Registry} : collect step (a :: rest) r = (.ok zs, r') ↔
      ∃ xs ys r₁, step a r = (.ok xs, r₁) ∧ collect step rest r₁ = (.ok ys, r') ∧ zs = xs ++ ys := by
  show (step a >>= fun xs => collect step rest >>= fun ys => Pure.pure (xs ++ ys)) r = _ ↔ _
  simp only [bind_eq_ok]
  constructor
  · rintro ⟨xs, r₁, hx, ys, r₂, hy, h⟩
    cases h
    exact ⟨xs, ys, r₁, hx, hy, rfl⟩
  · rintro ⟨xs, ys, r₁, hx, hy, rfl⟩
    exact ⟨xs, r₁, hx, ys, r', hy, rfl⟩

theorem collect_append_eq_ok {step : α → Emit (List β)} {as bs : List α} {xs ys : List β}
    {r₁ r₂ : Registry} (hx : collect step as r = (.ok xs, r₁))
    (hy : collect step bs r₁ = (.ok ys, r₂)) : collect step (as ++ bs) r = (.ok (xs ++ ys), r₂) := by
  induction as generalizing r xs with
  | nil =>
    cases hx
    exact hy
  | cons a rest ih =>
    obtain ⟨head, more, r', ha, hrest, rfl⟩ := collect_cons_eq_ok.mp hx
    rw [List.cons_append, collect_cons_eq_ok]
    exact ⟨head, more ++ ys, r', ha, ih hrest, List.append_assoc _ _ _⟩

/-- A name that is free is marked. -/
theorem mark_of_free {t : Target} {name : String} (h : r.hasType t name = false) :
    Emit.mark t name r = (.ok true, (r.markType t name).2) :=
  Prod.ext ((mark_fst t name r).trans (by rw [h]; rfl)) rfl

/-- Names stay free when another one is marked. -/
theorem free_of_markType {γ : Type} {t : Target} {name : γ → String} {m : γ} {others : List γ}
    (hn : name m ∉ others.map name) (hf : ∀ other ∈ others, r.hasType t (name other) = false) :
    ∀ other ∈ others, (r.markType t (name m)).2.hasType t (name other) = false := by
  intro other ho
  rw [Registry.hasType_markType, hf other ho, Bool.or_false, decide_eq_false_iff_not]
  exact fun h => hn (List.mem_map.mpr ⟨other, ho, h.2⟩)

/-- A step for a name that is free marks it and yields what it computes without the registry. -/
theorem ifFree_of_free {t : Target} {name : String} (h : r.hasType t name = false)
    (x : Except RenderFault α) (f : α → β) :
    (do if ← Emit.mark t name then return [f (← Emit.ofExcept x)] else return [] : Emit (List β)) r =
      (x.map fun a => [f a], (r.markType t name).2) := by
  rw [bind_of_eq_ok (mark_of_free h), if_pos rfl]
  show Emit.bind (Emit.ofExcept x) _ _ = _
  unfold Emit.bind Emit.ofExcept
  cases x <;> rfl

/-- Of members that are told apart by names that are free, each yields what it computes. -/
theorem fst_collect_ifFree {γ : Type} {t : Target} {name : γ → String} {x : γ → Except RenderFault α}
    {f : γ → α → β} (members : List γ) (hn : (members.map name).Nodup)
    (hf : ∀ m ∈ members, r.hasType t (name m) = false) :
    (collect (fun m => do
      if ← Emit.mark t (name m) then return [f m (← Emit.ofExcept (x m))] else return []) members r).1 =
      members.mapM fun m => (x m).map (f m) := by
  induction members generalizing r with
  | nil => rfl
  | cons m rest ih =>
    rw [List.map_cons, List.nodup_cons] at hn
    obtain ⟨hfree, hothers⟩ := List.forall_mem_cons.mp hf
    have hrest := ih (r := (r.markType t (name m)).2) hn.2 (free_of_markType hn.1 hothers)
    rw [List.mapM_cons, ← hrest]
    show (Emit.bind _ (fun xs => Emit.bind (collect _ rest) fun ys => Emit.pure (xs ++ ys)) r).1 = _
    unfold Emit.bind
    rw [ifFree_of_free hfree]
    cases x m with
    | error fault => rfl
    | ok a =>
      dsimp only [Except.map]
      rcases collect _ rest (r.markType t (name m)).2 with ⟨fault | more, r'⟩
      · rfl
      · rfl

end Emit

namespace Declaration

theorem types_append (as bs : List Declaration) : types (as ++ bs) = types as ++ types bs :=
  List.filterMap_append

theorem operations_append (as bs : List Declaration) :
    operations (as ++ bs) = operations as ++ operations bs := List.filterMap_append

theorem mem_types_iff {ds : List Declaration} {decl : TypeDecl} :
    decl ∈ types ds ↔ .type decl ∈ ds := by
  unfold types
  rw [List.mem_filterMap]
  constructor
  · rintro ⟨d, hd, he⟩
    cases d with
    | type decl' =>
      cases he
      exact hd
    | operation op => cases he
  · intro h
    exact ⟨_, h, rfl⟩

theorem mem_operations_iff {ds : List Declaration} {op : Operation} :
    op ∈ operations ds ↔ .operation op ∈ ds := by
  unfold operations
  rw [List.mem_filterMap]
  constructor
  · rintro ⟨d, hd, he⟩
    cases d with
    | type decl => cases he
    | operation op' =>
      cases he
      exact hd
  · intro h
    exact ⟨_, h, rfl⟩

end Declaration

namespace Emission

variable {t : Target} {P : TypeDecl → Prop} {r r' r₁ r₂ : Registry} {ds as bs : List Declaration}

/-! ## Types -/

/-- The declared types are new, and with what was marked before they are what is marked after. -/
structure TypeMarks (t : Target) (P : TypeDecl → Prop) (r : Registry) (ds : List Declaration)
    (r' : Registry) : Prop where
  declared : ∀ d ∈ ds, ∃ decl, d = .type decl ∧ P decl
  marks : ∀ n, r'.hasType t n = true ↔ r.hasType t n = true ∨ n ∈ ds.map Declaration.name
  free : ∀ d ∈ ds, r.hasType t d.name = false
  once : (ds.map Declaration.name).Nodup

/-- A step that declares types of which `P` holds, and concerns no operation. -/
structure TypeStep (t : Target) (P : TypeDecl → Prop) (r : Registry) (ds : List Declaration)
    (r' : Registry) : Prop extends TypeMarks t P r ds r' where
  operations : r'.operations = r.operations

namespace TypeMarks

theorem of_types_eq (h : r'.types = r.types) : TypeMarks t P r [] r' := by
  refine ⟨by simp, fun n => ?_, by simp, by simp⟩
  unfold Registry.hasType
  rw [h]
  simp

/-- A name that was marked stays so. -/
theorem mark (h : TypeMarks t P r ds r') {n : String} (hn : r.hasType t n = true) :
    r'.hasType t n = true := (h.marks n).mpr (.inl hn)

theorem append (h₁ : TypeMarks t P r as r₁) (h₂ : TypeMarks t P r₁ bs r₂) :
    TypeMarks t P r (as ++ bs) r₂ := by
  constructor
  · intro d hd
    rcases List.mem_append.mp hd with hd | hd
    · exact h₁.declared d hd
    · exact h₂.declared d hd
  · intro n
    rw [h₂.marks, h₁.marks, List.map_append, List.mem_append, or_assoc]
  · intro d hd
    rcases List.mem_append.mp hd with hd | hd
    · exact h₁.free d hd
    · have hfree := h₂.free d hd
      rw [Bool.eq_false_iff] at hfree ⊢
      exact fun hn => hfree (h₁.mark hn)
  · rw [List.map_append, List.nodup_append]
    refine ⟨h₁.once, h₂.once, ?_⟩
    -- what the first step declares is marked before the second
    intro a ha b hb he
    obtain ⟨d, hd, rfl⟩ := List.mem_map.mp hb
    have hm := (h₁.marks d.name).mpr (.inr (he ▸ ha))
    rw [h₂.free d hd] at hm
    cases hm

theorem mono {Q : TypeDecl → Prop} (h : TypeMarks t P r ds r') (hq : ∀ d, P d → Q d) :
    TypeMarks t Q r ds r' := by
  refine ⟨fun d hd => ?_, h.marks, h.free, h.once⟩
  obtain ⟨decl, he, hp⟩ := h.declared d hd
  exact ⟨decl, he, hq decl hp⟩

/-- A step that declares types declares no operation. -/
theorem operations_eq_nil (h : TypeMarks t P r ds r') : Declaration.operations ds = [] := by
  rw [List.eq_nil_iff_forall_not_mem]
  intro op hop
  obtain ⟨decl, he, -⟩ := h.declared _ (Declaration.mem_operations_iff.mp hop)
  cases he

/-- A step that declares types declares nothing else. -/
theorem map_types (h : TypeMarks t P r ds r') : (Declaration.types ds).map .type = ds := by
  have hall := h.declared
  clear h
  induction ds with
  | nil => rfl
  | cons d rest ih =>
    obtain ⟨decl, rfl, -⟩ := hall d List.mem_cons_self
    show Declaration.type decl :: (Declaration.types rest).map Declaration.type = _
    rw [ih fun e he => hall e (List.mem_cons_of_mem _ he)]

end TypeMarks

namespace TypeStep

theorem refl (r : Registry) : TypeStep t P r [] r := ⟨.of_types_eq rfl, rfl⟩

theorem append (h₁ : TypeStep t P r as r₁) (h₂ : TypeStep t P r₁ bs r₂) :
    TypeStep t P r (as ++ bs) r₂ :=
  ⟨h₁.toTypeMarks.append h₂.toTypeMarks, h₂.operations.trans h₁.operations⟩

theorem mono {Q : TypeDecl → Prop} (h : TypeStep t P r ds r') (hq : ∀ d, P d → Q d) :
    TypeStep t Q r ds r' := ⟨h.toTypeMarks.mono hq, h.operations⟩

end TypeStep

theorem hasType_once {decl : TypeDecl} {n : String} :
    (once t decl r).2.hasType t n = true ↔ r.hasType t n = true ∨ n = decl.name := by
  unfold once
  rw [Registry.hasType_markType]
  simp [or_comm]

/-- Declaring a type once declares it if its name was free, and marks the name. -/
theorem once_step {decl : TypeDecl} (hp : P decl) :
    TypeStep t P r (once t decl r).1 (once t decl r).2 ∧
      (once t decl r).2.hasType t decl.name = true := by
  refine ⟨?_, hasType_once.mpr (.inr rfl)⟩
  unfold once
  rw [Registry.fst_markType]
  cases hm : r.hasType t decl.name with
  | true =>
    have hr : (r.markType t decl.name).2 = r := by
      unfold Registry.markType
      rw [if_pos hm]
    rw [hr]
    exact .refl r
  | false =>
    have ho : (r.markType t decl.name).2.operations = r.operations := by
      unfold Registry.markType
      rw [if_neg (by rw [hm]; exact Bool.false_ne_true)]
    refine ⟨⟨?_, fun n => ?_, ?_, ?_⟩, ho⟩
    · intro d hd
      exact ⟨decl, List.mem_singleton.mp hd, hp⟩
    · rw [Registry.hasType_markType]
      simp [Declaration.name, or_comm]
    · intro d hd
      rw [List.mem_singleton.mp hd]
      exact hm
    · simp

/-- The same for a type that is worked out on the way and can be. -/
theorem onceOf_ends {name : String} {decl : Except RenderFault TypeDecl} {d : TypeDecl}
    (hd : decl = .ok d) (hn : d.name = name) (hp : P d) :
    (onceOf t name decl).Ends r fun ds r' => TypeStep t P r ds r' ∧ r'.hasType t name = true := by
  obtain ⟨hstep, hmark⟩ := once_step (t := t) (r := r) hp
  refine ⟨_, _, ?_, hstep, hn ▸ hmark⟩
  subst hd
  unfold onceOf once
  rw [hn]
  cases (r.markType t name).1 <;> rfl

/-! ## Operations -/

/-- The operations that come first under their names and have none of the names seen. -/
def firstNamed : List String → List Operation → List Operation
  | _, [] => []
  | seen, op :: rest =>
    if op.name ∈ seen then firstNamed seen rest else op :: firstNamed (op.name :: seen) rest

variable {op : Operation} {ops : List Operation} {seen : List String}

theorem of_mem_firstNamed (h : op ∈ firstNamed seen ops) : op ∈ ops ∧ op.name ∉ seen := by
  induction ops generalizing seen with
  | nil => cases h
  | cons a rest ih =>
    unfold firstNamed at h
    split at h
    · exact ⟨List.mem_cons_of_mem _ (ih h).1, (ih h).2⟩
    · next hseen =>
      rcases List.mem_cons.mp h with rfl | h
      · exact ⟨List.mem_cons_self, hseen⟩
      · obtain ⟨hm, hn⟩ := ih h
        exact ⟨List.mem_cons_of_mem _ hm, fun hs => hn (List.mem_cons_of_mem _ hs)⟩

/-- Of operations that their names tell apart, those whose names were not seen come first. -/
theorem mem_firstNamed (hsame : ∀ a ∈ ops, ∀ b ∈ ops, a.name = b.name → a = b) :
    op ∈ firstNamed seen ops ↔ op ∈ ops ∧ op.name ∉ seen := by
  refine ⟨of_mem_firstNamed, ?_⟩
  rintro ⟨hm, hn⟩
  induction ops generalizing seen with
  | nil => cases hm
  | cons a rest ih =>
    have hrest : ∀ seen, op ∈ rest → op.name ∉ seen → op ∈ firstNamed seen rest := fun seen hm hn =>
      ih (fun x hx y hy => hsame x (List.mem_cons_of_mem _ hx) y (List.mem_cons_of_mem _ hy)) hm hn
    unfold firstNamed
    split
    · next hseen =>
      rcases List.mem_cons.mp hm with rfl | hm
      · exact absurd hseen hn
      · exact hrest seen hm hn
    · by_cases he : op.name = a.name
      · -- the operation of that name is the one that stands here
        exact hsame op hm a List.mem_cons_self he ▸ List.mem_cons_self
      · rcases List.mem_cons.mp hm with rfl | hm
        · exact absurd rfl he
        · refine List.mem_cons_of_mem _ (hrest _ hm fun hs => ?_)
          exact (List.mem_cons.mp hs).elim he hn

theorem nodup_names_firstNamed (seen : List String) (ops : List Operation) :
    ((firstNamed seen ops).map Operation.name).Nodup := by
  induction ops generalizing seen with
  | nil => exact List.nodup_nil
  | cons a rest ih =>
    unfold firstNamed
    split
    · exact ih seen
    · rw [List.map_cons, List.nodup_cons]
      refine ⟨fun hm => ?_, ih _⟩
      obtain ⟨b, hb, he⟩ := List.mem_map.mp hm
      exact (of_mem_firstNamed hb).2 (he ▸ List.mem_cons_self)

theorem firstNamed_congr {seen' : List String} (h : ∀ n, n ∈ seen ↔ n ∈ seen') :
    firstNamed seen ops = firstNamed seen' ops := by
  induction ops generalizing seen seen' with
  | nil => rfl
  | cons a rest ih =>
    have hnext : ∀ n, n ∈ a.name :: seen ↔ n ∈ a.name :: seen' := by
      intro n
      rw [List.mem_cons, List.mem_cons, h]
    unfold firstNamed
    simp only [h a.name, ih h, ih hnext]

/-- The marked operations are those of the names seen. -/
def Seen (t : Target) (r : Registry) (seen : List String) : Prop :=
  ∀ n, r.hasOperation t n = true ↔ n ∈ seen

theorem seen_empty : Seen t .empty [] := fun n => by simp [Registry.hasOperation, Registry.empty]

theorem Seen.congr (h : Seen t r seen) (ho : r'.operations = r.operations) : Seen t r' seen := by
  intro n
  unfold Registry.hasOperation
  rw [ho]
  exact h n

theorem exists_seen (t : Target) (r : Registry) : ∃ seen, Seen t r seen := by
  refine ⟨(r.operations.filter fun m => m.1 = t).map Prod.snd, fun n => ?_⟩
  simp [Registry.hasOperation]

/-- A step that declares those of some operations that come first under their names and are not
marked. -/
structure OperationStep (t : Target) (ops : List Operation) (r : Registry) (ds : List Declaration)
    (r' : Registry) : Prop where
  declared : ∀ seen, Seen t r seen → ds = (firstNamed seen ops).map .operation
  marks : ∀ seen, Seen t r seen → Seen t r' (seen ++ ops.map Operation.name)
  types : r'.types = r.types

namespace OperationStep

theorem nil (r : Registry) : OperationStep t [] r [] r := by
  refine ⟨fun _ _ => rfl, fun seen h => ?_, rfl⟩
  rw [List.map_nil, List.append_nil]
  exact h

theorem operations_eq (h : OperationStep t ops r ds r') (hr : Seen t r seen) :
    Declaration.operations ds = firstNamed seen ops := by
  rw [h.declared seen hr]
  unfold Declaration.operations
  rw [List.filterMap_map]
  exact List.filterMap_some

/-- A step that declares operations declares no type. -/
theorem types_eq_nil (h : OperationStep t ops r ds r') : Declaration.types ds = [] := by
  obtain ⟨seen, hr⟩ := exists_seen t r
  rw [List.eq_nil_iff_forall_not_mem]
  intro decl hd
  rw [Declaration.mem_types_iff, h.declared seen hr] at hd
  obtain ⟨op, -, he⟩ := List.mem_map.mp hd
  cases he

theorem mem_of_mem_operations (h : OperationStep t ops r ds r')
    (hop : op ∈ Declaration.operations ds) : op ∈ ops := by
  obtain ⟨seen, hr⟩ := exists_seen t r
  rw [h.operations_eq hr] at hop
  exact (of_mem_firstNamed hop).1

theorem hasType_eq (h : OperationStep t ops r ds r') (n : String) : r'.hasType t n = r.hasType t n := by
  unfold Registry.hasType
  rw [h.types]

theorem hasOperation_iff (h : OperationStep t ops r ds r') {n : String} :
    r'.hasOperation t n = true ↔ r.hasOperation t n = true ∨ n ∈ ops.map Operation.name := by
  obtain ⟨seen, hr⟩ := exists_seen t r
  rw [h.marks seen hr n, hr n, List.mem_append]

end OperationStep

theorem hasOperation_markOperation (name other : String) (r : Registry) :
    (r.markOperation t name).2.hasOperation t other = true ↔
      r.hasOperation t other = true ∨ other = name := by
  unfold Registry.markOperation
  split
  · next h =>
    constructor
    · exact .inl
    · rintro (h' | rfl)
      · exact h'
      · exact h
  · simp [Registry.hasOperation, or_comm]

theorem fst_markOperation (name : String) (r : Registry) :
    (r.markOperation t name).1 = !r.hasOperation t name := by
  unfold Registry.markOperation
  cases r.hasOperation t name <;> rfl

theorem types_markOperation (name : String) (r : Registry) :
    (r.markOperation t name).2.types = r.types := by
  unfold Registry.markOperation
  split <;> rfl

/-- The registry lets through what comes first under its name and is not marked. -/
theorem freeOperations_step (ops : List Operation) (r : Registry) :
    OperationStep t ops r (freeOperations t ops r).1 (freeOperations t ops r).2 := by
  induction ops generalizing r with
  | nil => exact .nil r
  | cons a rest ih =>
    have h := ih (r.markOperation t a.name).2
    have hmark : ∀ {seen}, Seen t r seen → Seen t (r.markOperation t a.name).2 (a.name :: seen) := by
      intro seen hr n
      rw [hasOperation_markOperation, hr n, List.mem_cons, or_comm]
    unfold freeOperations
    dsimp only
    refine ⟨fun seen hr => ?_, fun seen hr n => ?_, h.types.trans (types_markOperation _ _)⟩
    · unfold firstNamed
      rw [h.declared _ (hmark hr), fst_markOperation]
      cases hm : r.hasOperation t a.name with
      | true =>
        -- a name that was seen already does not narrow what follows
        have ha := (hr a.name).mp hm
        have hsame : ∀ n, n ∈ a.name :: seen ↔ n ∈ seen := fun n =>
          ⟨fun hn => (List.mem_cons.mp hn).elim (fun he => he ▸ ha) id, List.mem_cons_of_mem _⟩
        rw [if_pos ha, Bool.not_true, if_neg Bool.false_ne_true, firstNamed_congr hsame]
      | false =>
        have ha : a.name ∉ seen := fun hn => by
          rw [(hr a.name).mpr hn] at hm
          cases hm
        rw [if_neg ha, Bool.not_false, if_pos rfl]
        rfl
    · rw [h.marks _ (hmark hr) n, List.mem_append, List.mem_append, List.mem_cons, List.map_cons,
        List.mem_cons]
      exact or_assoc.trans or_left_comm

end Emission

end SchemaGen
