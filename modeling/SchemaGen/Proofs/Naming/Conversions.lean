import SchemaGen.Naming.Case
import SchemaGen.Proofs.Document.Patterns
import SchemaGen.Proofs.Naming.Words

/-!
# Conversions absorb each other

A conversion puts the words of a text together and takes nothing else of it. What it puts together is read
as the same words again, in another case at most, and no conversion looks at the case of a word. So the last
of several conversions decides, and any two of them tell the same texts apart.

The texts that snake and kebab case leave alone are those that they write: nothing, or words in lower case
with one separator between neighbours.

Results:
1. `split_join`: the words of a text are read again from each way to write them.
2. `write_write`, `write_eq_write_iff`: the last conversion decides, and all of them tell the same texts apart.
3. `joinWith_split_eq_iff`: which texts are left alone.
4. `conversions_absorb`: all of it.
-/

namespace SchemaGen

open Computability

/-! ## Words with a separator between neighbours -/

namespace Pattern

/-- `[a-z0-9]+` -/
def word : Language Char := (lower + digit) * (lower + digit)∗

/-- `[a-z0-9]+(s[a-z0-9]+)*` for the separator `s`. -/
def separated (sep : Char) : Language Char := word * (just sep * word)∗

theorem mem_word_iff_all {w : List Char} : w ∈ word ↔ w ≠ [] ∧ ∀ c ∈ w, isWordChar c = true := by
  unfold word
  rw [decides_wordChar.mem_mul_kstar_iff decides_wordChar]
  cases w with
  | nil => simp
  | cons c rest => simp

/-- Each further word follows a separator. -/
theorem mem_kstar_just_mul_iff {l : Language Char} {sep : Char} {cs : List Char} :
    cs ∈ (just sep * l)∗ ↔ ∃ ws : List (List Char), (∀ w ∈ ws, w ∈ l) ∧ cs = (ws.map (sep :: ·)).flatten := by
  rw [Language.mem_kstar]
  constructor
  · rintro ⟨parts, rfl, hparts⟩
    have htail : ∀ part ∈ parts, ∃ w ∈ l, part = sep :: w := by
      intro part hpart
      obtain ⟨c, w, rfl, hc, hw⟩ := (Decides.just sep).mem_mul_iff.mp (hparts part hpart)
      exact ⟨w, hw, by rw [beq_iff_eq.mp hc]⟩
    refine ⟨parts.map List.tail, List.forall_mem_map.mpr fun part hpart => ?_, ?_⟩
    · obtain ⟨w, hw, rfl⟩ := htail part hpart
      exact hw
    · have hself : ∀ part ∈ parts, sep :: part.tail = id part := by
        intro part hpart
        obtain ⟨w, -, rfl⟩ := htail part hpart
        rfl
      rw [List.map_map]
      exact congrArg List.flatten ((List.map_congr_left hself).trans (List.map_id _)).symm
  · rintro ⟨ws, hws, rfl⟩
    refine ⟨ws.map (sep :: ·), rfl, List.forall_mem_map.mpr fun w hw => ?_⟩
    exact (Decides.just sep).cons_mem_mul_iff.mpr ⟨beq_self_eq_true sep, hws w hw⟩

end Pattern

namespace Naming

variable {ws : List Word} {sep : Char}

theorem joinWith_cons_eq_flatten (sep : Char) (w : Word) (ws : List Word) :
    joinWith sep (w :: ws) = w ++ (ws.map (sep :: ·)).flatten := by
  induction ws generalizing w with
  | nil => exact (List.append_nil w).symm
  | cons v rest ih =>
    rw [joinWith_cons w (List.cons_ne_nil v rest), ih, List.map_cons, List.flatten_cons, List.cons_append]

/-- The texts of the pattern are words put together. -/
theorem mem_separated_iff {cs : List Char} :
    cs ∈ Pattern.separated sep ↔ ∃ ws ≠ [], (∀ w ∈ ws, w ∈ Pattern.word) ∧ cs = joinWith sep ws := by
  unfold Pattern.separated
  rw [Language.mem_mul]
  constructor
  · rintro ⟨w, hw, after, hafter, rfl⟩
    obtain ⟨ws, hws, rfl⟩ := Pattern.mem_kstar_just_mul_iff.mp hafter
    exact ⟨w :: ws, List.cons_ne_nil _ _, List.forall_mem_cons.mpr ⟨hw, hws⟩,
      (joinWith_cons_eq_flatten sep w ws).symm⟩
  · rintro ⟨ws, hne, hws, rfl⟩
    obtain ⟨w, rest, rfl⟩ := List.exists_cons_of_ne_nil hne
    obtain ⟨hw, hrest⟩ := List.forall_mem_cons.mp hws
    exact ⟨w, hw, _, Pattern.mem_kstar_just_mul_iff.mpr ⟨rest, hrest, rfl⟩,
      (joinWith_cons_eq_flatten sep w rest).symm⟩

/-! ## Words in lower case -/

theorem isWordChar_iff {c : Char} :
    Pattern.isWordChar c = true ↔ c.isAlphanum = true ∧ c.isUpper = false := by
  unfold Pattern.isWordChar Char.isAlphanum Char.isAlpha
  constructor
  · intro h
    refine ⟨by rw [Bool.or_assoc, h, Bool.or_true], ?_⟩
    rcases Bool.or_eq_true_iff.mp h with h | h
    · exact Bool.eq_false_iff.mpr (Char.not_isUpper_of_isLower h)
    · refine Bool.eq_false_iff.mpr fun hupper => ?_
      rw [isDigit_eq_false (Bool.or_eq_true_iff.mpr (.inl hupper))] at h
      cases h
  · rintro ⟨h, hupper⟩
    rw [hupper, Bool.false_or] at h
    exact h

theorem lower_mem_word {w : Word} (hne : w ≠ []) (h : ∀ c ∈ w, c.isAlphanum = true) :
    lower w ∈ Pattern.word := by
  refine Pattern.mem_word_iff_all.mpr ⟨by simpa [lower] using hne, fun c hc => ?_⟩
  obtain ⟨d, hd, rfl⟩ := List.mem_map.mp hc
  refine isWordChar_iff.mpr ⟨?_, Char.isUpper_toLower_eq_false d⟩
  rw [isAlphanum_toLower]
  exact h d hd

theorem lower_of_mem_word {w : Word} (h : w ∈ Pattern.word) : lower w = w := by
  have hself : ∀ c ∈ w, c.toLower = id c := fun c hc =>
    Char.toLower_eq_of_not_isUpper (by simp [(isWordChar_iff.mp ((Pattern.mem_word_iff_all.mp h).2 c hc)).2])
  unfold lower
  rw [List.map_congr_left hself, List.map_id]

theorem unbroken_of_mem_word {w : Word} (h : w ∈ Pattern.word) : Unbroken w := by
  obtain ⟨hne, hchars⟩ := Pattern.mem_word_iff_all.mp h
  rw [← lower_of_mem_word h]
  exact (unbroken_lower_capitalize hne fun c hc => (isWordChar_iff.mp (hchars c hc)).1).1

/-! ## The conversions -/

/-- The ways to write the words of a text. -/
inductive Convention
  | camel | pascal | snake | kebab
  deriving DecidableEq, Repr

namespace Convention

/-- The conversion of texts. -/
def write : Convention → String → String
  | camel => toCamel
  | pascal => toPascal
  | snake => toSnake
  | kebab => toKebab

/-- How words are put together. -/
def join : Convention → List Word → List Char
  | camel, ws => compact (camelWords ws)
  | pascal, ws => compact (ws.map capitalize)
  | snake, ws => joinWith '_' (ws.map lower)
  | kebab, ws => joinWith '-' (ws.map lower)

theorem toList_write (f : Convention) (s : String) : (f.write s).toList = f.join (split s.toList) := by
  cases f <;> exact String.toList_ofList

theorem write_eq_ofList (f : Convention) (s : String) :
    f.write s = String.ofList (f.join (split s.toList)) := by
  cases f <;> rfl

theorem camelWords_lower (ws : List Word) : camelWords (ws.map lower) = camelWords ws := by
  cases ws with
  | nil => rfl
  | cons w rest =>
    show lower (lower w) :: (rest.map lower).map capitalize = lower w :: rest.map capitalize
    rw [lower_lower, List.map_map, show capitalize ∘ lower = capitalize from funext capitalize_lower]

theorem lower_camelWords (ws : List Word) : (camelWords ws).map lower = ws.map lower := by
  cases ws with
  | nil => rfl
  | cons w rest =>
    show lower (lower w) :: (rest.map capitalize).map lower = lower w :: rest.map lower
    rw [lower_lower, List.map_map, show lower ∘ capitalize = lower from funext lower_capitalize]

/-- No conversion looks at the case of a word. -/
theorem join_lower (f : Convention) (ws : List Word) : f.join (ws.map lower) = f.join ws := by
  cases f with
  | camel => exact congrArg compact (camelWords_lower ws)
  | pascal =>
    show compact ((ws.map lower).map capitalize) = compact (ws.map capitalize)
    rw [List.map_map, show capitalize ∘ lower = capitalize from funext capitalize_lower]
  | snake =>
    show joinWith '_' ((ws.map lower).map lower) = joinWith '_' (ws.map lower)
    rw [List.map_map, show lower ∘ lower = lower from funext lower_lower]
  | kebab =>
    show joinWith '-' ((ws.map lower).map lower) = joinWith '-' (ws.map lower)
    rw [List.map_map, show lower ∘ lower = lower from funext lower_lower]

/-- The words of a text are read again from what they are put together to, whatever their case. -/
theorem split_join (f : Convention) (hne : ∀ w ∈ ws, w ≠ []) (h : ∀ w ∈ ws, ∀ c ∈ w, c.isAlphanum = true) :
    (split (f.join ws)).map lower = ws.map lower := by
  have hlower : ∀ w ∈ ws.map lower, Unbroken w :=
    List.forall_mem_map.mpr fun w hw => (unbroken_lower_capitalize (hne w hw) (h w hw)).1
  have hcapital : ∀ w ∈ ws.map capitalize, Unbroken w :=
    List.forall_mem_map.mpr fun w hw => (unbroken_lower_capitalize (hne w hw) (h w hw)).2
  cases f with
  | camel =>
    have hcamel : ∀ w ∈ camelWords ws, Unbroken w := by
      cases ws with
      | nil => exact fun w hw => absurd hw List.not_mem_nil
      | cons w rest =>
        exact List.forall_mem_cons.mpr
          ⟨(List.forall_mem_cons.mp hlower).1, (List.forall_mem_cons.mp hcapital).2⟩
    show (split (compact (camelWords ws))).map lower = _
    rw [split_compact fun w hw => (hcamel w hw).split_eq, lower_camelWords]
  | pascal =>
    show (split (compact (ws.map capitalize))).map lower = _
    rw [split_compact fun w hw => (hcapital w hw).split_eq, List.map_map,
      show lower ∘ capitalize = lower from funext lower_capitalize]
  | snake =>
    show (split (joinWith '_' (ws.map lower))).map lower = _
    rw [split_joinWith (by decide) fun w hw => (hlower w hw).split_eq, List.map_map,
      show lower ∘ lower = lower from funext lower_lower]
  | kebab =>
    show (split (joinWith '-' (ws.map lower))).map lower = _
    rw [split_joinWith (by decide) fun w hw => (hlower w hw).split_eq, List.map_map,
      show lower ∘ lower = lower from funext lower_lower]

theorem split_write (f : Convention) (s : String) :
    (split (f.write s).toList).map lower = (split s.toList).map lower := by
  rw [toList_write, split_join f ne_nil_of_mem_split isAlphanum_of_mem_split]

/-- The last conversion decides. -/
theorem write_write (f g : Convention) (s : String) : f.write (g.write s) = f.write s := by
  rw [write_eq_ofList, ← join_lower, split_write, join_lower, ← write_eq_ofList]

/-- All conversions tell the same texts apart. -/
theorem write_eq_write_iff (f g : Convention) (s t : String) :
    f.write s = f.write t ↔ g.write s = g.write t := by
  have himp : ∀ f g : Convention, f.write s = f.write t → g.write s = g.write t := fun f g h => by
    rw [← write_write g f s, h, write_write]
  exact ⟨himp f g, himp g f⟩

/-- A text is left alone exactly if it is nothing, or words in lower case with separators between them. -/
theorem joinWith_split_eq_iff (hsep : sep.isAlphanum = false) (cs : List Char) :
    joinWith sep ((split cs).map lower) = cs ↔ cs = [] ∨ cs ∈ Pattern.separated sep := by
  constructor
  · intro h
    by_cases hnone : split cs = []
    · rw [hnone] at h
      exact .inl h.symm
    · refine .inr (mem_separated_iff.mpr ⟨(split cs).map lower, by simpa using hnone, ?_, h.symm⟩)
      exact List.forall_mem_map.mpr fun w hw =>
        lower_mem_word (ne_nil_of_mem_split w hw) (isAlphanum_of_mem_split w hw)
  · rintro (rfl | h)
    · rfl
    · obtain ⟨ws, -, hws, rfl⟩ := mem_separated_iff.mp h
      have hself : ∀ w ∈ ws, lower w = id w := fun w hw => lower_of_mem_word (hws w hw)
      rw [split_joinWith hsep fun w hw => (unbroken_of_mem_word (hws w hw)).split_eq, List.map_congr_left hself,
        List.map_id]

/-- The last of several conversions decides, so that each leaves alone what it has written, and Pascal case
and snake case tell the same texts apart. Snake case leaves a text alone exactly if it is nothing or words of
letters in lower case and digits with a `_` between neighbours, and kebab case likewise with `-`. -/
theorem conversions_absorb :
    (∀ (f g : Convention) (s : String), f.write (g.write s) = f.write s) ∧
    (∀ (f : Convention) (s : String), f.write (f.write s) = f.write s) ∧
    (∀ s t : String, toPascal s = toPascal t ↔ toSnake s = toSnake t) ∧
    (∀ s : String, toSnake s = s ↔ s = "" ∨ s.toList ∈ Pattern.separated '_') ∧
    ∀ s : String, toKebab s = s ↔ s = "" ∨ s.toList ∈ Pattern.separated '-' := by
  refine ⟨write_write, fun f => write_write f f, write_eq_write_iff pascal snake, fun s => ?_, fun s => ?_⟩
  · unfold toSnake snakeChars
    rw [String.ofList_eq, joinWith_split_eq_iff (by decide), String.toList_eq_nil_iff]
  · unfold toKebab kebabChars
    rw [String.ofList_eq, joinWith_split_eq_iff (by decide), String.toList_eq_nil_iff]

end Convention

end Naming

end SchemaGen
