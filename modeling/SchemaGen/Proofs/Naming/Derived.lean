import Mathlib.Data.String.Basic
import SchemaGen.Naming.Derived

/-!
# Telling derived names apart

The names derived from one entity differ: the inputs of its operations by how they start, envelopes
and inputs by how they end, and the inputs of queries by their length. The names of operations start
with what the operation does.

Results:
1. `fixedTypes_nodup`, `queryInput_not_mem_fixedTypes`: the type names of one entity differ.
2. `queryOperation_eq_iff`: the queries of one entity differ as their inputs do.
3. `mutation_inj`, `queryOperation_ne_mutation`: what the names of operations start with.
-/

namespace SchemaGen.Naming

variable {entity other verb : String} {a b : List String}

/-! ## Types -/

/-- The type names of a table that do not depend on its keys. -/
def fixedTypes (entity : String) : List String :=
  [createInput entity, updateInput entity, deleteInput entity, response entity, listResponse entity]

theorem length_createInput : (createInput entity).length = entity.length + 11 := by
  simp only [createInput, String.length_append, show "Create".length = 6 from rfl,
    show "Input".length = 5 from rfl]
  omega

theorem length_updateInput : (updateInput entity).length = entity.length + 11 := by
  simp only [updateInput, String.length_append, show "Update".length = 6 from rfl,
    show "Input".length = 5 from rfl]
  omega

theorem length_deleteInput : (deleteInput entity).length = entity.length + 11 := by
  simp only [deleteInput, String.length_append, show "Delete".length = 6 from rfl,
    show "Input".length = 5 from rfl]
  omega

theorem length_response : (response entity).length = entity.length + 8 := by
  simp only [response, String.length_append, show "Response".length = 8 from rfl]

theorem length_listResponse : (listResponse entity).length = entity.length + 12 := by
  simp only [listResponse, String.length_append, show "ListResponse".length = 12 from rfl]

theorem length_queryInput :
    (queryInput entity a).length = entity.length + 12 + (byAttributes a).length := by
  simp only [queryInput, String.length_append, show "QueryBy".length = 7 from rfl,
    show "Input".length = 5 from rfl]
  omega

/-- Texts that start with different characters differ. -/
theorem append_ne_of_head {s t x y : String} {c d : Char} {cs ds : List Char} (hs : s.toList = c :: cs)
    (ht : t.toList = d :: ds) (hne : c ≠ d) : s ++ x ≠ t ++ y := by
  intro he
  have := congrArg String.toList he
  rw [String.toList_append, String.toList_append, hs, ht, List.cons_append, List.cons_append] at this
  exact hne (List.cons.inj this).1

theorem suffix_append (s t : String) : t.toList <:+ (s ++ t).toList := by
  rw [String.toList_append]
  exact List.suffix_append _ _

/-- Texts that end differently differ. -/
theorem append_ne_of_suffix {s t x y : String} (h : ¬ x.toList <:+ y.toList) (h' : ¬ y.toList <:+ x.toList) :
    s ++ x ≠ t ++ y := by
  intro he
  have hx : x.toList <:+ (t ++ y).toList := he ▸ suffix_append s x
  rcases List.suffix_or_suffix_of_suffix hx (suffix_append t y) with hs | hs
  · exact h hs
  · exact h' hs

/-- Files of one kind are named apart when what they are of is. -/
theorem nodup_files {α : Type} {xs : List α} {name : α → String} (h : (xs.map name).Nodup)
    (mark ext : String) : (xs.map fun x => name x ++ mark ++ ext).Nodup :=
  List.pairwise_map.mpr ((List.pairwise_map.mp h).imp fun hne he =>
    hne ((String.append_left_inj _).mp ((String.append_left_inj _).mp he)))

theorem ne_of_length {s t : String} (h : s.length ≠ t.length) : s ≠ t := fun he => h (congrArg _ he)

theorem fixedTypes_nodup (entity : String) : (fixedTypes entity).Nodup := by
  have hcu : createInput entity ≠ updateInput entity := by
    unfold createInput updateInput
    rw [String.append_assoc, String.append_assoc]
    exact append_ne_of_head rfl rfl (by decide)
  have hcd : createInput entity ≠ deleteInput entity := by
    unfold createInput deleteInput
    rw [String.append_assoc, String.append_assoc]
    exact append_ne_of_head rfl rfl (by decide)
  have hud : updateInput entity ≠ deleteInput entity := by
    unfold updateInput deleteInput
    rw [String.append_assoc, String.append_assoc]
    exact append_ne_of_head rfl rfl (by decide)
  have hlen : ∀ s ∈ [createInput entity, updateInput entity, deleteInput entity],
      s ≠ response entity ∧ s ≠ listResponse entity := by
    intro s hs
    have hl : s.length = entity.length + 11 := by
      rcases List.mem_cons.mp hs with rfl | hs
      · exact length_createInput
      rcases List.mem_cons.mp hs with rfl | hs
      · exact length_updateInput
      · rw [List.mem_singleton.mp hs]
        exact length_deleteInput
    constructor
    · exact ne_of_length (by rw [hl, length_response]; omega)
    · exact ne_of_length (by rw [hl, length_listResponse]; omega)
  have hrl : response entity ≠ listResponse entity :=
    ne_of_length (by rw [length_response, length_listResponse]; omega)
  simp only [List.mem_cons, List.not_mem_nil, or_false, forall_eq_or_imp, forall_eq] at hlen
  simp only [fixedTypes, List.nodup_cons, List.mem_cons, List.not_mem_nil, or_false, not_or,
    not_false_eq_true, List.nodup_nil, and_true]
  exact ⟨⟨hcu, hcd, hlen.1⟩, ⟨hud, hlen.2.1⟩, hlen.2.2, hrl⟩

/-- The input of a query is none of the other types of the table. -/
theorem queryInput_not_mem_fixedTypes (entity : String) (a : List String) :
    queryInput entity a ∉ fixedTypes entity := by
  have hlen : ∀ {s : String}, s.length < entity.length + 12 → queryInput entity a ≠ s := by
    intro s hs
    exact ne_of_length (by rw [length_queryInput]; omega)
  have hlist : queryInput entity a ≠ listResponse entity := by
    unfold queryInput listResponse
    rw [String.append_assoc, String.append_assoc, ne_eq, String.append_right_inj]
    intro he
    refine append_ne_of_head (s := "QueryBy") (t := "ListResponse") (y := "") rfl rfl (by decide)
      (he.trans (String.append_empty).symm)
  simp only [fixedTypes, List.mem_cons, List.not_mem_nil, or_false, not_or]
  refine ⟨hlen ?_, hlen ?_, hlen ?_, hlen ?_, hlist⟩
  · rw [length_createInput]
    omega
  · rw [length_updateInput]
    omega
  · rw [length_deleteInput]
    omega
  · rw [length_response]
    omega

/-! ## Operations -/

theorem queryInput_eq_iff :
    queryInput entity a = queryInput entity b ↔ byAttributes a = byAttributes b := by
  unfold queryInput
  rw [String.append_left_inj, String.append_right_inj]

/-- The queries of one entity have one name exactly when their inputs do. -/
theorem queryOperation_eq_iff :
    queryOperation entity a = queryOperation entity b ↔ queryInput entity a = queryInput entity b := by
  rw [queryInput_eq_iff]
  unfold queryOperation
  rw [String.append_right_inj]

/-- What mutations do, as their names start. -/
def verbs : List String := ["create", "update", "delete"]

theorem toCamel_verb (h : verb ∈ verbs) : toCamel verb = verb := by
  revert verb
  decide

/-- Mutations of one name do the same to the same entity. -/
theorem mutation_inj {verb' : String} (hv : verb ∈ verbs) (hv' : verb' ∈ verbs)
    (h : mutation verb entity = mutation verb' other) : verb = verb' ∧ entity = other := by
  have hne : ∀ {s t : String} {c d : Char} {cs ds : List Char}, s.toList = c :: cs →
      t.toList = d :: ds → c ≠ d → s ++ entity ≠ t ++ other := append_ne_of_head
  unfold mutation at h
  rw [toCamel_verb hv, toCamel_verb hv'] at h
  simp only [verbs, List.mem_cons, List.not_mem_nil, or_false] at hv hv'
  rcases hv with rfl | rfl | rfl <;> rcases hv' with rfl | rfl | rfl
  case inl.inl => exact ⟨rfl, (String.append_right_inj _).mp h⟩
  case inr.inl.inr.inl => exact ⟨rfl, (String.append_right_inj _).mp h⟩
  case inr.inr.inr.inr => exact ⟨rfl, (String.append_right_inj _).mp h⟩
  all_goals exact absurd h (hne rfl rfl (by decide))

/-- A query is no mutation. -/
theorem queryOperation_ne_mutation (hv : verb ∈ verbs) :
    queryOperation entity a ≠ mutation verb other := by
  unfold queryOperation mutation
  rw [toCamel_verb hv, String.append_assoc, String.append_assoc]
  simp only [verbs, List.mem_cons, List.not_mem_nil, or_false] at hv
  rcases hv with rfl | rfl | rfl <;> exact append_ne_of_head rfl rfl (by decide)

end SchemaGen.Naming
