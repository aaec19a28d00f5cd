import Mathlib.Data.List.Chain
import SchemaGen.Proofs.Emission.Embedded
import SchemaGen.Target.ApiSchema.Selection

/-!
# What a selection holds

The selection of an entity follows its references. An attribute that references an entity is selected with the
selection of that entity, unless the path has come through the entity before or there is nothing to select of
it; every other attribute is selected by itself. So an entity that is reached without repetition has its place
in the selection, as soon as it has an attribute of its own to select.

Results:
1. `mem_selectFrom_iff`: the parts of a selection.
2. `exists_nodup_chain`: what is reached is reached without repetition.
3. `selectFrom_ne_nil`: a selection is not empty if a path leads to an attribute that is selected by itself.
-/

namespace SchemaGen

variable {c : Catalog} {e f : Entity} {path : List String} {depth : Nat}

/-! ## Parts -/

namespace Selection

/-- The name of the attribute that is selected. -/
def name : Selection → String
  | leaf name => name
  | branch name _ => name

/-- What is selected of the attribute, if it is not selected by itself. -/
def parts? : Selection → Option (List Selection)
  | leaf _ => none
  | branch _ parts => some parts

/-- The entity that an attribute references, if it does. -/
def target? (c : Catalog) (a : Attribute) : Option Entity := a.shape.referenced?.bind c.entity?

/-- The parts of a selection: each attribute that references no entity by itself, and each of the others with
what there is to select of its entity, if the path has not come through that. -/
theorem mem_selectFrom_iff {s : Selection} : s ∈ selectFrom c (depth + 1) path e ↔
    ∃ a ∈ e.attributes, (target? c a = none ∧ s = leaf a.name) ∨
      ∃ f, target? c a = some f ∧ f.name ∉ e.name :: path ∧
        selectFrom c depth (e.name :: path) f ≠ [] ∧
          s = branch a.name (selectFrom c depth (e.name :: path) f) := by
  rw [selectFrom, List.mem_filterMap]
  refine exists_congr fun a => and_congr_right fun _ => ?_
  have hdef : a.shape.referenced?.bind c.entity? = target? c a := rfl
  rw [hdef]
  cases target? c a with
  | none =>
    constructor
    · exact fun h => .inl ⟨rfl, (Option.some.inj h).symm⟩
    · rintro (⟨-, rfl⟩ | ⟨f, hf, -⟩)
      · rfl
      · cases hf
  | some target =>
    have htarget : ∀ f, some target = some f ↔ target = f := fun f => Option.some_inj
    simp only [reduceCtorEq, false_and, false_or, htarget, exists_eq_left']
    by_cases hpath : target.name ∈ e.name :: path
    · rw [if_pos (List.contains_iff_mem.mpr hpath)]
      exact ⟨fun h => absurd h (Option.some_ne_none s).symm, fun h => absurd hpath h.1⟩
    · rw [if_neg (mt List.contains_iff_mem.mp hpath)]
      by_cases hparts : selectFrom c depth (e.name :: path) target = []
      · rw [if_pos (List.isEmpty_iff.mpr hparts)]
        exact ⟨fun h => absurd h (Option.some_ne_none s).symm, fun h => absurd hparts h.2.1⟩
      · rw [if_neg (mt List.isEmpty_iff.mp hparts)]
        exact ⟨fun h => ⟨hpath, hparts, (Option.some.inj h).symm⟩, fun h => h.2.2 ▸ rfl⟩

theorem mem_selectFrom_of_leaf {a : Attribute} (ha : a ∈ e.attributes) (h : target? c a = none) :
    leaf a.name ∈ selectFrom c (depth + 1) path e := mem_selectFrom_iff.mpr ⟨a, ha, .inl ⟨h, rfl⟩⟩

end Selection

/-! ## Paths without repetition -/

/-- What is reached is reached along a list of different things. -/
theorem exists_nodup_chain {α : Type} {r : α → α → Prop} {a b : α} (h : Relation.ReflTransGen r a b) :
    ∃ rest, List.IsChain r (a :: rest) ∧ (a :: rest).getLast? = some b ∧ (a :: rest).Nodup := by
  induction h using Relation.ReflTransGen.head_induction_on with
  | refl => exact ⟨[], .singleton _, rfl, List.nodup_singleton _⟩
  | @head a a' hr _ ih =>
    obtain ⟨rest, hchain, hlast, hnodup⟩ := ih
    by_cases hm : a ∈ a' :: rest
    · -- the list comes back to the start, and is cut there
      obtain ⟨before, after, heq⟩ := List.append_of_mem hm
      rw [heq] at hchain hlast hnodup
      refine ⟨after, hchain.right_of_append, ?_, (List.nodup_append.mp hnodup).2.1⟩
      rw [← hlast, List.getLast?_append_of_ne_nil _ (List.cons_ne_nil _ _)]
    · refine ⟨a' :: rest, List.isChain_cons_cons.mpr ⟨hr, hchain⟩, ?_, List.nodup_cons.mpr ⟨hm, hnodup⟩⟩
      rw [List.getLast?_cons_cons, hlast]

/-- The names of different entities of a catalog are different. -/
theorem Catalog.nodup_names {es : List Entity} (hn : es.Nodup) (h : ∀ e ∈ es, c.entity? e.name = some e) :
    (es.map Entity.name).Nodup := by
  refine List.Nodup.map_on (fun e he f hf hname => ?_) hn
  have hsame := h e he
  rw [hname, h f hf] at hsame
  exact (Option.some.inj hsame).symm

/-- Different names of entities are no more than there are entities. -/
theorem Catalog.IsSound.length_le {names : List String} (hc : c.IsSound) (hn : names.Nodup)
    (h : ∀ n ∈ names, ∃ e, c.entity? n = some e) : names.length ≤ c.entities.size := by
  have hsubset : names ⊆ c.entities.names := fun n hm => hc.entities.mem_names_iff.mpr (h n hm)
  have hlength : c.entities.names.length = c.entities.size := List.length_map _
  exact hlength ▸ (hn.subperm hsubset).length_le

/-- Every entity on a chain of references is one of the catalog if the first one is. -/
theorem Catalog.IsSound.entity?_of_mem_chain {rest : List Entity} (hc : c.IsSound)
    (he : c.entity? e.name = some e) (h : List.IsChain c.Refers (e :: rest)) :
    ∀ f ∈ e :: rest, c.entity? f.name = some f := by
  induction rest generalizing e with
  | nil => exact List.forall_mem_singleton.mpr he
  | cons f more ih =>
    obtain ⟨hr, hmore⟩ := List.isChain_cons_cons.mp h
    exact List.forall_mem_cons.mpr ⟨he, ih (hr.entity? hc) hmore⟩

/-! ## Selections along a path -/

namespace Selection

/-- A reference to an entity is selected with what there is to select of it. -/
theorem exists_branch (hr : c.Refers e f) (hpath : f.name ∉ e.name :: path)
    (hparts : selectFrom c depth (e.name :: path) f ≠ []) : ∃ a ∈ e.attributes, target? c a = some f ∧
      branch a.name (selectFrom c depth (e.name :: path) f) ∈ selectFrom c (depth + 1) path e := by
  obtain ⟨a, ha, n, hn, hf⟩ := hr
  have htarget : target? c a = some f := Option.bind_eq_some_iff.mpr ⟨n, hn, hf⟩
  exact ⟨a, ha, htarget, mem_selectFrom_iff.mpr ⟨a, ha, .inr ⟨f, htarget, hpath, hparts, rfl⟩⟩⟩

/-- There is something to select of an entity from which a path leads, without coming through an entity twice,
to an attribute that is selected by itself. -/
theorem selectFrom_ne_nil {rest : List Entity} (hchain : List.IsChain c.Refers (e :: rest))
    (hlast : ∃ f, (e :: rest).getLast? = some f ∧ ∃ a ∈ f.attributes, target? c a = none)
    (hnodup : (((e :: rest).map Entity.name) ++ path).Nodup) (hdepth : rest.length < depth) :
    selectFrom c depth path e ≠ [] := by
  induction rest generalizing e path depth with
  | nil =>
    obtain ⟨f, hf, a, ha, hnone⟩ := hlast
    cases hf
    cases depth with
    | zero => cases hdepth
    | succ depth => exact List.ne_nil_of_mem (mem_selectFrom_of_leaf ha hnone)
  | cons f more ih =>
    obtain ⟨hr, hmore⟩ := List.isChain_cons_cons.mp hchain
    rw [List.getLast?_cons_cons] at hlast
    cases depth with
    | zero => cases hdepth
    | succ depth =>
      have hshift : ((f :: more).map Entity.name ++ e.name :: path).Nodup := List.nodup_middle.mpr hnodup
      have hparts := ih hmore hlast hshift (Nat.lt_of_succ_lt_succ hdepth)
      have hpath : f.name ∉ e.name :: path := by
        rw [List.map_cons, List.cons_append, List.nodup_cons, List.mem_append, not_or] at hshift
        exact hshift.1.2
      obtain ⟨a, -, -, hbranch⟩ := exists_branch hr hpath hparts
      exact List.ne_nil_of_mem hbranch

end Selection

end SchemaGen
