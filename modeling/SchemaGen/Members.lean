/-!
# Members in order of mention

Pairs of a name and a value, in the order in which the names came first. Inserting under a name that
is there replaces its value, which keeps its place.

Results:
1. `lookup_insert`: what is held after an insertion.
2. `mem_names_insert`: the names after an insertion.
-/

namespace SchemaGen

/-- Pairs of a name and a value. -/
abbrev Members (α : Type) := List (String × α)

namespace Members

variable {α : Type}

/-- The members with `value` under `name`. -/
def insert (name : String) (value : α) : Members α → Members α
  | [] => [(name, value)]
  | (other, old) :: rest =>
    if other = name then (name, value) :: rest else (other, old) :: insert name value rest

theorem mem_names_insert (name other : String) (value : α) (members : Members α) :
    other ∈ (insert name value members).map Prod.fst ↔
      other = name ∨ other ∈ members.map Prod.fst := by
  induction members with
  | nil => simp [insert]
  | cons m rest ih =>
    obtain ⟨k, v⟩ := m
    by_cases h : k = name
    · simp [insert, h]
    · simp only [insert, h, if_false, List.map_cons, List.mem_cons, ih]
      grind

theorem lookup_insert (name other : String) (value : α) (members : Members α) :
    (insert name value members).lookup other =
      if other = name then some value else members.lookup other := by
  induction members with
  | nil =>
    by_cases h : other = name
    · simp [insert, h]
    · simp [insert, List.lookup_cons, beq_eq_false_iff_ne.mpr h, h]
  | cons m rest ih =>
    obtain ⟨k, v⟩ := m
    by_cases h : k = name
    · by_cases e : other = name
      · simp [insert, h, e]
      · simp [insert, h, List.lookup_cons, beq_eq_false_iff_ne.mpr e, e]
    · by_cases e : other = k
      · simp [insert, h, e]
      · simp [insert, h, List.lookup_cons, beq_eq_false_iff_ne.mpr e, ih]

end Members

end SchemaGen
