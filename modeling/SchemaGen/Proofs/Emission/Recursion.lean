import SchemaGen.Proofs.Emission.AtMostOnce

/-!
# The recursion of fragments

A fragment renders its parts and then its own body, and the body of the walk over embedded types renders
fragments of the types that it enters, the walk among them. `embedded` follows this recursion down to a
depth that it is given. Here the recursion stands without any depth, as the relation of a call to what it
comes back with: a call returns exactly if all the calls that it makes return, and one that went on forever
would be related to nothing. So that every fragment returns is proved for every catalog, in whatever circles
its entities refer to one another.

A call also tells how deep walks were nested while it ran. A walk is entered from another one only after
a type was marked that was free, and nothing is unmarked, so that a walk nests at most one level deeper
than there are unmarked object types when it starts.

Results:
1. `Returns.unique`: a call returns in one way.
2. `walksReturn`: a walk returns within any depth that exceeds the number of unmarked types.
3. `render_returns`: every fragment returns what `render` says, and how deep its walks are nested.
-/

namespace SchemaGen.Emission

variable {c : Catalog} {t : Target} {e : Entity} {f : Fragment} {r r₁ r₂ : Registry} {depth : Nat}

/-! ## Calls -/

/-- A call that rendering makes.

* `fragment`: a fragment of an entity, its parts included.
* `body`: what a fragment emits beside its parts.
* `visit`: what a walk does at a dependency.
* `sequence`: calls one after another, up to the first fault. -/
inductive Call where
  | fragment (e : Entity) (f : Fragment)
  | body (e : Entity) (f : Fragment)
  | visit (dep : Entity)
  | sequence (calls : List Call)

/-- What a call comes back with: its outcome, the registry, and how deep walks were nested. -/
structure Return where
  outcome : Except RenderFault (List Declaration)
  registry : Registry
  depth : Nat

/-- What comes back if declarations were made before, in walks nested that deep. -/
def Return.after (ds : List Declaration) (n : Nat) (x : Return) : Return :=
  ⟨x.outcome.map (ds ++ ·), x.registry, max n x.depth⟩

@[simp] theorem Return.after_nil (x : Return) : x.after [] 0 = x := by
  obtain ⟨fault | ds, r, n⟩ := x <;> simp [Return.after, Except.map]

/-- `Returns c t call r x`: a call that starts with the registry `r` ends, and comes back with `x`.

* `nil`, `cons`, `fault`: a sequence puts the declarations of its calls together, and ends with a fault.
* `fragment`: the parts in order, and then the body.
* `body`: every body but the walk makes no calls.
* `walk`: a walk visits the dependencies of its entity, one level deeper.
* `table`: a table is passed over.
* `marked`: so is a type whose own declaration was made before.
* `free`: a type that was free is declared, walked from, and followed by its input variant.
* `modelFault`: a fault of the declaration ends the visit. -/
inductive Returns (c : Catalog) (t : Target) : Call → Registry → Return → Prop
  | nil {r : Registry} : Returns c t (.sequence []) r ⟨.ok [], r, 0⟩
  | cons {call : Call} {calls : List Call} {r r₁ : Registry} {ds : List Declaration} {n : Nat} {x : Return} :
      Returns c t call r ⟨.ok ds, r₁, n⟩ → Returns c t (.sequence calls) r₁ x →
      Returns c t (.sequence (call :: calls)) r (x.after ds n)
  | fault {call : Call} {calls : List Call} {r r₁ : Registry} {fault : RenderFault} {n : Nat} :
      Returns c t call r ⟨.error fault, r₁, n⟩ →
      Returns c t (.sequence (call :: calls)) r ⟨.error fault, r₁, n⟩
  | fragment {e : Entity} {f : Fragment} {r : Registry} {x : Return} :
      Returns c t (.sequence [.sequence (f.dependencies.map (.fragment e)), .body e f]) r x →
      Returns c t (.fragment e f) r x
  | body {e : Entity} {f : Fragment} {r : Registry} :
      f ≠ .embeddedTypes → Returns c t (.body e f) r ⟨(single c t e f r).1, (single c t e f r).2, 0⟩
  | walk {e : Entity} {r : Registry} {x : Return} :
      Returns c t (.sequence ((c.dependencies e).map .visit)) r x →
      Returns c t (.body e .embeddedTypes) r { x with depth := x.depth + 1 }
  | table {dep : Entity} {r : Registry} :
      dep.isTable = true → Returns c t (.visit dep) r ⟨.ok [], r, 0⟩
  | marked {dep : Entity} {r r₁ : Registry} {n : Nat} :
      dep.isTable = false → Returns c t (.fragment dep .entityModel) r ⟨.ok [], r₁, n⟩ →
      Returns c t (.visit dep) r ⟨.ok [], r₁, n⟩
  | free {dep : Entity} {r r₁ : Registry} {own : List Declaration} {n : Nat} {x : Return} :
      dep.isTable = false → Returns c t (.fragment dep .entityModel) r ⟨.ok own, r₁, n⟩ → own ≠ [] →
      Returns c t (.sequence [.fragment dep .embeddedTypes, .fragment dep .inputVariant]) r₁ x →
      Returns c t (.visit dep) r (x.after own n)
  | modelFault {dep : Entity} {r r₁ : Registry} {fault : RenderFault} {n : Nat} :
      dep.isTable = false → Returns c t (.fragment dep .entityModel) r ⟨.error fault, r₁, n⟩ →
      Returns c t (.visit dep) r ⟨.error fault, r₁, n⟩

namespace Returns

variable {call : Call} {x y : Return}

/-- A call returns in one way. The induction is on the first derivation; of the rules for its call, the
second one can only have used the same. -/
theorem unique (hx : Returns c t call r x) (hy : Returns c t call r y) : y = x := by
  induction hx generalizing y with
  | nil =>
    cases hy with
    | nil => rfl
  | cons _ _ ihhead ihrest =>
    cases hy with
    | cons hhead hrest =>
      cases ihhead hhead
      cases ihrest hrest
      rfl
    | fault hhead => cases ihhead hhead
  | fault _ ihhead =>
    cases hy with
    | cons hhead => cases ihhead hhead
    | fault hhead => exact ihhead hhead
  | fragment _ ih =>
    cases hy with
    | fragment hsequence => exact ih hsequence
  | body hf =>
    cases hy with
    | body => rfl
    | walk => exact absurd rfl hf
  | walk _ ih =>
    cases hy with
    | body hf => exact absurd rfl hf
    | walk hvisits =>
      cases ih hvisits
      rfl
  | table htable =>
    cases hy with
    | table => rfl
    | marked hdep | free hdep | modelFault hdep =>
      exact absurd (hdep.symm.trans htable) Bool.false_ne_true
  | marked hdep _ ihmodel =>
    cases hy with
    | table htable => exact absurd (hdep.symm.trans htable) Bool.false_ne_true
    | marked _ hmodel => exact ihmodel hmodel
    | free _ hmodel hown =>
      cases ihmodel hmodel
      exact absurd rfl hown
    | modelFault _ hmodel => cases ihmodel hmodel
  | free hdep _ hown _ ihmodel ihinner =>
    cases hy with
    | table htable => exact absurd (hdep.symm.trans htable) Bool.false_ne_true
    | marked _ hmodel =>
      cases ihmodel hmodel
      exact absurd rfl hown
    | free _ hmodel _ hinner =>
      cases ihmodel hmodel
      cases ihinner hinner
      rfl
    | modelFault _ hmodel => cases ihmodel hmodel
  | modelFault hdep _ ihmodel =>
    cases hy with
    | table htable => exact absurd (hdep.symm.trans htable) Bool.false_ne_true
    | marked _ hmodel => cases ihmodel hmodel
    | free _ hmodel => cases ihmodel hmodel
    | modelFault _ hmodel => exact ihmodel hmodel

/-- A sequence of one call is that call. -/
theorem singleton (h : Returns c t call r x) : Returns c t (.sequence [call]) r x := by
  obtain ⟨fault | ds, r₁, n⟩ := x
  · exact .fault h
  · simpa [Return.after, Except.map] using Returns.cons h .nil

/-- A fragment without parts is its body. -/
theorem leaf (hf : f.dependencies = []) (h : Returns c t (.body e f) r x) :
    Returns c t (.fragment e f) r x := by
  have hparts : Returns c t (.sequence (f.dependencies.map (.fragment e))) r ⟨.ok [], r, 0⟩ := by
    rw [hf]
    exact .nil
  exact .fragment (by simpa using Returns.cons hparts h.singleton)

end Returns

/-! ## Calls within a depth -/

/-- A call returns that outcome and registry, and walks are nested no deeper than `depth`. -/
def Runs (c : Catalog) (t : Target) (depth : Nat) (call : Call) (r : Registry)
    (yield : Except RenderFault (List Declaration) × Registry) : Prop :=
  ∃ n ≤ depth, Returns c t call r ⟨yield.1, yield.2, n⟩

/-- One step and then another, their declarations put together. -/
theorem append_apply (x y : Emit (List Declaration)) (r : Registry) :
    (do let ds ← x; let es ← y; return ds ++ es : Emit (List Declaration)) r =
      match x r with
      | (.ok ds, r₁) => ((y r₁).1.map (ds ++ ·), (y r₁).2)
      | (.error fault, r₁) => (.error fault, r₁) := by
  show Emit.bind x (fun ds => Emit.bind y fun es => Emit.pure (ds ++ es)) r = _
  unfold Emit.bind
  rcases x r with ⟨fault | ds, r₁⟩
  · rfl
  · dsimp only
    rcases y r₁ with ⟨fault | es, r₂⟩ <;> rfl

namespace Runs

variable {call : Call} {calls : List Call} {dep : Entity} {own : List Declaration}
  {yield : Except RenderFault (List Declaration) × Registry} {x y : Emit (List Declaration)}

theorem mono {deeper : Nat} (h : Runs c t depth call r yield) (hle : depth ≤ deeper) :
    Runs c t deeper call r yield := by
  obtain ⟨n, hn, h⟩ := h
  exact ⟨n, hn.trans hle, h⟩

theorem nil : Runs c t depth (.sequence []) r (.ok [], r) := ⟨0, Nat.zero_le _, .nil⟩

theorem cons (hhead : Runs c t depth call r (x r))
    (hrest : Runs c t depth (.sequence calls) (x r).2 (y (x r).2)) :
    Runs c t depth (.sequence (call :: calls)) r
      ((do let ds ← x; let es ← y; return ds ++ es : Emit (List Declaration)) r) := by
  obtain ⟨n, hn, hhead⟩ := hhead
  obtain ⟨m, hm, hrest⟩ := hrest
  rw [append_apply]
  generalize x r = head at *
  obtain ⟨fault | ds, r₁⟩ := head
  · exact ⟨n, hn, .fault hhead⟩
  · exact ⟨max n m, max_le hn hm, .cons hhead hrest⟩

theorem singleton (h : Runs c t depth call r yield) : Runs c t depth (.sequence [call]) r yield := by
  obtain ⟨n, hn, h⟩ := h
  exact ⟨n, hn, h.singleton⟩

theorem fragment
    (h : Runs c t depth (.sequence [.sequence (f.dependencies.map (.fragment e)), .body e f]) r yield) :
    Runs c t depth (.fragment e f) r yield := by
  obtain ⟨n, hn, h⟩ := h
  exact ⟨n, hn, .fragment h⟩

theorem body (hf : f ≠ .embeddedTypes) : Runs c t depth (.body e f) r (single c t e f r) :=
  ⟨0, Nat.zero_le _, .body hf⟩

theorem walk (h : Runs c t depth (.sequence ((c.dependencies e).map .visit)) r yield) :
    Runs c t (depth + 1) (.body e .embeddedTypes) r yield := by
  obtain ⟨n, hn, h⟩ := h
  exact ⟨n + 1, Nat.succ_le_succ hn, .walk h⟩

theorem table (hdep : dep.isTable = true) : Runs c t depth (.visit dep) r (.ok [], r) :=
  ⟨0, Nat.zero_le _, .table hdep⟩

theorem marked (hdep : dep.isTable = false)
    (hmodel : Runs c t depth (.fragment dep .entityModel) r (.ok [], r₁)) :
    Runs c t depth (.visit dep) r (.ok [], r₁) := by
  obtain ⟨n, hn, hmodel⟩ := hmodel
  exact ⟨n, hn, .marked hdep hmodel⟩

theorem free (hdep : dep.isTable = false)
    (hmodel : Runs c t depth (.fragment dep .entityModel) r (.ok own, r₁)) (hown : own ≠ [])
    (hinner : Runs c t depth
      (.sequence [.fragment dep .embeddedTypes, .fragment dep .inputVariant]) r₁ yield) :
    Runs c t depth (.visit dep) r (yield.1.map (own ++ ·), yield.2) := by
  obtain ⟨n, hn, hmodel⟩ := hmodel
  obtain ⟨m, hm, hinner⟩ := hinner
  exact ⟨max n m, max_le hn hm, .free hdep hmodel hown hinner⟩

theorem leaf (hf : f.dependencies = []) (h : Runs c t depth (.body e f) r yield) :
    Runs c t depth (.fragment e f) r yield := by
  obtain ⟨n, hn, h⟩ := h
  exact ⟨n, hn, h.leaf hf⟩

end Runs

/-! ## What returns -/

theorem Grows.unmarked_le (h : Grows r r₁) : unmarked c t r₁ ≤ unmarked c t r :=
  Emission.unmarked_le fun n hn => h (.type t n) hn

/-- Declaring a type that was free leaves fewer unmarked ones. -/
theorem unmarked_entityModel_lt {o : ObjectType} (ho : .object o ∈ c.entityList)
    (hfree : r.hasType t o.name = false) :
    unmarked c t (entityModel t (.object o) r).2 < unmarked c t r :=
  have hgrows := (introduces_once (t := t) (entityDecl (.object o)) r).grows
  unmarked_lt ho (fun n hn => hgrows (.type t n) hn) hfree (hasType_once.mpr (.inr rfl))

theorem grows_visit (depth : Nat) (dep : Entity) (r : Registry) : Grows r (visit c t depth dep r).2 :=
  (introduces_visit (introduces_embedded depth) dep r).grows

/-- Walks with fewer unmarked types before them return within that depth. -/
def WalksReturn (c : Catalog) (t : Target) (depth : Nat) : Prop :=
  ∀ e r, unmarked c t r < depth →
    Runs c t depth (.body e .embeddedTypes) r (Emit.total (embedded c t depth e) r)

/-- A visit, given what walks do. A type that was free is marked before the walk from it starts. -/
theorem runs_visit {dep : Entity} (hdep : dep ∈ c.entityList) (ih : WalksReturn c t depth)
    (hr : unmarked c t r < depth + 1) :
    Runs c t depth (.visit dep) r (Emit.total (visit c t depth dep) r) := by
  have hmodel : Runs c t depth (.fragment dep .entityModel) r (Emit.total (entityModel t dep) r) :=
    .leaf rfl (.body (by decide))
  cases dep with
  | table table => exact .table rfl
  | object o =>
    unfold Emit.total at hmodel ⊢
    cases hm : r.hasType t o.name with
    | true =>
      rw [entityModel_of_marked hm] at hmodel
      rw [visit_of_marked hm]
      exact .marked rfl hmodel
    | false =>
      have hlt := unmarked_entityModel_lt hdep hm
      have hown : (entityModel t (.object o) r).1 ≠ [] := by
        rw [entityModel_of_free hm]
        exact List.cons_ne_nil _ _
      rw [visit_of_free hm]
      dsimp only
      generalize entityModel t (.object o) r = model at *
      have hwalk := Runs.leaf rfl (ih (.object o) model.2 (by omega))
      have hinput : ∀ r₁, Runs c t depth (.fragment (.object o) .inputVariant) r₁
          (Emit.total (inputVariant t (.object o)) r₁) := fun r₁ => .leaf rfl (.body (by decide))
      have hinner := hwalk.cons (hinput _).singleton
      rw [append_apply] at hinner
      have hfree := Runs.free rfl hmodel hown hinner
      rwa [List.append_assoc]

/-- The visits of a walk. -/
theorem runs_visits (ih : WalksReturn c t depth) (deps : List Entity)
    (hdeps : ∀ dep ∈ deps, dep ∈ c.entityList) (r : Registry) (hr : unmarked c t r < depth + 1) :
    Runs c t depth (.sequence (deps.map .visit)) r (Emit.total (each (visit c t depth) deps) r) := by
  induction deps generalizing r with
  | nil => exact .nil
  | cons dep rest ihrest =>
    obtain ⟨hdep, hrest⟩ := List.forall_mem_cons.mp hdeps
    have hlater := ihrest hrest (visit c t depth dep r).2 ((grows_visit depth dep r).unmarked_le.trans_lt hr)
    have hvisits := (runs_visit hdep ih hr).cons hlater
    rwa [append_apply] at hvisits

/-- A walk returns, and nests within any depth that exceeds the number of unmarked types. The induction is on
the depth; what a walk enters, it enters with fewer unmarked types. -/
theorem walksReturn (c : Catalog) (t : Target) (depth : Nat) : WalksReturn c t depth := by
  induction depth with
  | zero => exact fun _ _ hr => absurd hr (Nat.not_lt_zero _)
  | succ depth ih =>
    intro e r hr
    unfold Emit.total
    rw [embedded_eq_each]
    exact .walk (runs_visits ih _ (fun _ => Catalog.mem_entityList_of_mem_dependencies) r hr)

theorem runs_body (e : Entity) (f : Fragment) (hr : unmarked c t r < depth) :
    Runs c t depth (.body e f) r (single c t e f r) := by
  by_cases hf : f = .embeddedTypes
  · subst hf
    exact (walksReturn c t _ e r (Nat.lt_succ_self _)).mono hr
  · exact .body hf

/-- Parts that have no parts of their own. -/
theorem runs_parts (e : Entity) (fs : List Fragment) (hfs : ∀ f ∈ fs, f.dependencies = [])
    (hr : unmarked c t r < depth) :
    Runs c t depth (.sequence (fs.map (.fragment e))) r (Emit.collect (single c t e) fs r) := by
  induction fs generalizing r with
  | nil => exact .nil
  | cons f fs ih =>
    obtain ⟨hf, hrest⟩ := List.forall_mem_cons.mp hfs
    have hgrows := (disciplined_single (c := c) (t := t) e f r).fulfils.grows
    exact .cons (.leaf hf (runs_body e f hr)) (ih hrest (hgrows.unmarked_le.trans_lt hr))

/-- The parts of a fragment have no parts. -/
theorem dependencies_of_mem_dependencies {g : Fragment} (h : g ∈ f.dependencies) :
    g.dependencies = [] := by
  cases f <;> simp only [Fragment.dependencies, List.mem_cons, List.not_mem_nil, or_false] at h <;>
    grind [Fragment.dependencies]

theorem runs_render (e : Entity) (f : Fragment) (hr : unmarked c t r < depth) :
    Runs c t depth (.fragment e f) r (render c t e f r) := by
  have hparts := runs_parts e f.dependencies (fun _ => dependencies_of_mem_dependencies) hr
  have hdisciplined : Disciplined t (Emit.collect (single c t e) f.dependencies) :=
    disciplined_collect fun g _ => disciplined_single e g
  have hgrows := (hdisciplined r).fulfils.grows
  exact .fragment (.cons hparts (.singleton (runs_body e f (hgrows.unmarked_le.trans_lt hr))))

/-- Every fragment returns, in one way: with what `render` says, and with walks nested at most one level
deeper than there are object types of the catalog that are not marked for the target. -/
theorem render_returns (c : Catalog) (t : Target) (e : Entity) (f : Fragment) (r : Registry) :
    ∃ n ≤ unmarked c t r + 1, ∀ x, Returns c t (.fragment e f) r x ↔
      x = ⟨(render c t e f r).1, (render c t e f r).2, n⟩ := by
  obtain ⟨n, hn, h⟩ := runs_render e f (Nat.lt_succ_self (unmarked c t r))
  exact ⟨n, hn, fun x => ⟨h.unique, fun hx => hx ▸ h⟩⟩

end SchemaGen.Emission
