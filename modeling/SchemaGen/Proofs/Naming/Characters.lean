import SchemaGen.Document.Rules
import SchemaGen.Naming.Derived
import SchemaGen.Proofs.Naming.Modules
import SchemaGen.Proofs.Naming.Words
import SchemaGen.Proofs.Text.Lines

/-!
# What names are written with

Names of types, attributes, operations, values and modules are written with letters, digits and `_`. This
holds of what a document gives, and of what is derived from it: the words of a text are letters and digits,
and only `_` is put between them.

Results:
1. `isIdentifier_of_isTypeName`, `isIdentifier_of_isCamelName`, `isIdentifier_of_isEnumValue`: names that
   documents give.
2. `isIdentifier_toPascal`, `isIdentifier_toSnake`: names in other cases.
3. `IsIdentifier.isLine`: a name is part of a line.
-/

namespace SchemaGen

variable {n m : String}

/-- The characters of names. -/
def isIdentChar (c : Char) : Bool := c.isAlphanum || c == '_'

/-- The text is written with letters, digits and `_` alone. -/
def IsIdentifier (n : String) : Prop := ∀ c ∈ n.toList, isIdentChar c = true

instance (n : String) : Decidable (IsIdentifier n) :=
  decidable_of_iff (n.toList.all isIdentChar = true) List.all_eq_true

theorem IsIdentifier.append (h : IsIdentifier n) (h' : IsIdentifier m) : IsIdentifier (n ++ m) := by
  unfold IsIdentifier
  rw [String.toList_append]
  exact List.forall_mem_append.mpr ⟨h, h'⟩

theorem IsIdentifier.not_mem (h : IsIdentifier n) {c : Char} (hc : isIdentChar c = false) :
    c ∉ n.toList := by
  intro hm
  rw [h c hm] at hc
  cases hc

theorem IsIdentifier.isLine (h : IsIdentifier n) : Text.IsLine n :=
  ⟨h.not_mem (by decide), fun hlast => h.not_mem (by decide) (List.mem_of_getLast? hlast)⟩

theorem isIdentChar_of_isAlphanum {c : Char} (h : c.isAlphanum = true) : isIdentChar c = true := by
  unfold isIdentChar
  rw [h, Bool.true_or]

/-! ## Names that documents give -/

theorem isIdentifier_of_isTypeName (h : isTypeName n.toList = true) : IsIdentifier n := fun c hc =>
  isIdentChar_of_isAlphanum (isAlphanum_of_isTypeName h c hc)

theorem isIdentifier_of_isCamelName (h : isCamelName n.toList = true) : IsIdentifier n := by
  unfold IsIdentifier
  cases hn : n.toList with
  | nil => exact fun c hc => absurd hc List.not_mem_nil
  | cons c rest =>
    rw [hn] at h
    obtain ⟨hlower, hrest⟩ := Bool.and_eq_true_iff.mp h
    refine List.forall_mem_cons.mpr ⟨isIdentChar_of_isAlphanum ?_, fun d hd => ?_⟩
    · show (c.isUpper || c.isLower || c.isDigit) = true
      rw [hlower, Bool.or_true, Bool.true_or]
    · exact isIdentChar_of_isAlphanum (List.all_eq_true.mp hrest d hd)

theorem isIdentifier_of_isEnumValue (h : isEnumValue n.toList = true) : IsIdentifier n := by
  unfold IsIdentifier
  cases hn : n.toList with
  | nil => exact fun c hc => absurd hc List.not_mem_nil
  | cons c rest =>
    rw [hn] at h
    obtain ⟨hfirst, hrest⟩ := Bool.and_eq_true_iff.mp h
    refine List.forall_mem_cons.mpr ⟨?_, fun d hd => List.all_eq_true.mp hrest d hd⟩
    unfold isIdentChar Char.isAlphanum
    rw [Bool.or_assoc, Bool.or_comm c.isDigit, ← Bool.or_assoc, hfirst, Bool.true_or]

/-! ## Names in other cases -/

namespace Naming

theorem isIdentChar_of_mem_compactAfter {ws : List Word}
    (h : ∀ w ∈ ws, ∀ c ∈ w, c.isAlphanum = true) : ∀ prev, ∀ c ∈ compactAfter prev ws, isIdentChar c = true := by
  induction ws with
  | nil => exact fun _ c hc => absurd hc List.not_mem_nil
  | cons w rest ih =>
    intro prev c hc
    obtain ⟨hw, hrest⟩ := List.forall_mem_cons.mp h
    have hword : ∀ c ∈ w, isIdentChar c = true := fun c hc => isIdentChar_of_isAlphanum (hw c hc)
    unfold compactAfter at hc
    rcases List.mem_append.mp hc with hc | hc
    · split at hc
      · exact hword c hc
      · rcases List.mem_cons.mp hc with rfl | hc
        · rfl
        · exact hword c hc
    · exact ih hrest w c hc

theorem isIdentifier_compact {ws : List Word} (h : ∀ w ∈ ws, ∀ c ∈ w, c.isAlphanum = true) :
    IsIdentifier (String.ofList (compact ws)) := by
  unfold IsIdentifier
  rw [String.toList_ofList]
  cases ws with
  | nil => exact fun c hc => absurd hc List.not_mem_nil
  | cons w rest =>
    obtain ⟨hw, hrest⟩ := List.forall_mem_cons.mp h
    exact List.forall_mem_append.mpr
      ⟨fun c hc => isIdentChar_of_isAlphanum (hw c hc), isIdentChar_of_mem_compactAfter hrest w⟩

theorem isIdentifier_toPascal (n : String) : IsIdentifier (toPascal n) := by
  refine isIdentifier_compact fun w hw => ?_
  obtain ⟨v, hv, rfl⟩ := List.mem_map.mp hw
  exact isAlphanum_capitalize (isAlphanum_of_mem_split v hv)

theorem head?_compactAfter {ws : List Word} (prev : Word) (h : ∀ w ∈ ws, ∀ c ∈ w.head?, c.isLower = false) :
    ∀ c ∈ (compactAfter prev ws).head?, c.isLower = false := by
  induction ws generalizing prev with
  | nil => exact fun c hc => by cases hc
  | cons w rest ih =>
    obtain ⟨hw, hrest⟩ := List.forall_mem_cons.mp h
    refine head?_append_of_head? ?_ (ih w hrest)
    split
    · exact hw
    · rintro c ⟨⟩
      rfl

/-- Words that do not start in lower case are put together to a text that does not. -/
theorem head?_compact {ws : List Word} (h : ∀ w ∈ ws, ∀ c ∈ w.head?, c.isLower = false) :
    ∀ c ∈ (compact ws).head?, c.isLower = false := by
  cases ws with
  | nil => exact fun c hc => by cases hc
  | cons w rest =>
    obtain ⟨hw, hrest⟩ := List.forall_mem_cons.mp h
    exact head?_append_of_head? hw (head?_compactAfter w hrest)

/-- Pascal case does not start in lower case. -/
theorem head?_toPascal (n : String) : ∀ c ∈ (toPascal n).toList.head?, c.isLower = false := by
  unfold toPascal pascalChars
  rw [String.toList_ofList]
  refine head?_compact (List.forall_mem_map.mpr fun w _ => ?_)
  cases w with
  | nil => exact fun c hc => by cases hc
  | cons d rest =>
    rintro c ⟨⟩
    exact Char.isLower_toUpper_eq_false d

theorem isIdentifier_joinWith {ws : List Word} (h : ∀ w ∈ ws, ∀ c ∈ w, c.isAlphanum = true) :
    ∀ c ∈ joinWith '_' ws, isIdentChar c = true := by
  induction ws using joinWith.induct with
  | case1 => exact fun c hc => absurd hc List.not_mem_nil
  | case2 w => exact fun c hc => isIdentChar_of_isAlphanum (h w (List.mem_singleton.mpr rfl) c hc)
  | case3 w rest hne ih =>
    obtain ⟨hw, hrest⟩ := List.forall_mem_cons.mp h
    rw [joinWith.eq_3 _ _ _ hne]
    refine List.forall_mem_append.mpr ⟨fun c hc => isIdentChar_of_isAlphanum (hw c hc), ?_⟩
    exact List.forall_mem_cons.mpr ⟨rfl, ih hrest⟩

theorem isIdentifier_toSnake (n : String) : IsIdentifier (toSnake n) := by
  unfold IsIdentifier toSnake snakeChars
  rw [String.toList_ofList]
  refine isIdentifier_joinWith fun w hw => ?_
  obtain ⟨v, hv, rfl⟩ := List.mem_map.mp hw
  exact isAlphanum_lower (isAlphanum_of_mem_split v hv)

theorem isIdentifier_byAttributes (attributes : List String) : IsIdentifier (byAttributes attributes) := by
  unfold byAttributes
  induction attributes with
  | nil => decide
  | cons a rest ih =>
    cases rest with
    | nil => simpa using isIdentifier_toPascal a
    | cons b more =>
      rw [List.map_cons] at ih
      rw [List.map_cons, List.map_cons, String.intercalate_cons_cons]
      exact ((isIdentifier_toPascal a).append (by decide)).append ih

end Naming

/-! ## Numbers -/

theorem isIdentifier_toString (n : Nat) : IsIdentifier (toString n) := by
  intro c hc
  rw [Nat.toString_eq_repr, Nat.toList_repr] at hc
  have hdigit := Nat.isDigit_of_mem_toDigits (by decide) (by decide) hc
  refine isIdentChar_of_isAlphanum ?_
  show (c.isAlpha || c.isDigit) = true
  rw [hdigit, Bool.or_true]

end SchemaGen
