import SchemaGen.Fault
import SchemaGen.Model.Catalog

/-!
# The registry of emitted symbols

A symbol is emitted at most once for each target. Whoever is about to emit one marks it first and
emits nothing when it was marked before. Types and operations are marked apart.

Results:
1. `fst_markType`: marking succeeds exactly when the name was not marked for the target.
2. `hasType_markType`: the marks after a mark.
-/

namespace SchemaGen

/-- The types and operations marked so far. -/
structure Registry where
  types : List (Target × String)
  operations : List (Target × String)
  deriving Repr, DecidableEq

namespace Registry

/-- The registry without marks. -/
def empty : Registry := ⟨[], []⟩

/-- Whether a type is marked for a target. -/
def hasType (r : Registry) (t : Target) (name : String) : Bool := r.types.contains (t, name)

/-- Whether an operation is marked for a target. -/
def hasOperation (r : Registry) (t : Target) (name : String) : Bool := r.operations.contains (t, name)

/-- Marks a type and says whether it was free. -/
def markType (t : Target) (name : String) (r : Registry) : Bool × Registry :=
  if r.hasType t name then (false, r) else (true, { r with types := (t, name) :: r.types })

/-- Marks an operation and says whether it was free. -/
def markOperation (t : Target) (name : String) (r : Registry) : Bool × Registry :=
  if r.hasOperation t name then (false, r) else (true, { r with operations := (t, name) :: r.operations })

/-- The names among marks that belong to a target, in order. -/
def namesOf (t : Target) (marks : List (Target × String)) : List String :=
  sortedNames ((marks.filter fun m => m.1 == t).map Prod.snd)

/-- The types marked for a target, in name order. -/
def typesOf (r : Registry) (t : Target) : List String := namesOf t r.types

/-- The operations marked for a target, in name order. -/
def operationsOf (r : Registry) (t : Target) : List String := namesOf t r.operations

theorem fst_markType (t : Target) (name : String) (r : Registry) :
    (r.markType t name).1 = !r.hasType t name := by
  unfold markType
  split <;> simp_all

theorem hasType_markType (t u : Target) (name other : String) (r : Registry) :
    (r.markType t name).2.hasType u other =
      (decide (u = t ∧ other = name) || r.hasType u other) := by
  unfold markType
  split
  · rename_i h
    by_cases e : u = t ∧ other = name
    · obtain ⟨rfl, rfl⟩ := e
      simp [h]
    · simp [e]
  · simp [hasType]

end Registry

end SchemaGen
