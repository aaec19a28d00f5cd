import Mathlib.Computability.Language
import SchemaGen.Document.Rules

/-!
# The patterns of names

Which texts may name a type, an attribute, an index or an enum value is said by four patterns. Each
is written here as the language it denotes, built from single characters by choice, sequence and
repetition, and the checks of the loader decide these languages:

* a check of a head and of every further character decides a head followed by a repetition;
* cutting at `-` decides a repetition of words with a `-` before each, which can be seen from one
  character to the next.

Results:
1. `mem_typeName_iff`, `mem_camelName_iff`, `mem_identifier_iff`: the plain patterns.
2. `mem_kebabName_iff`: the pattern of index names.
-/

namespace SchemaGen.Pattern

open Computability

/-- Any one of the characters from `low` to `high`. -/
def between (low high : Char) : Language Char := {cs | ∃ c, low ≤ c ∧ c ≤ high ∧ cs = [c]}

/-- One character. -/
def just (c : Char) : Language Char := {[c]}

def upper : Language Char := between 'A' 'Z'
def lower : Language Char := between 'a' 'z'
def digit : Language Char := between '0' '9'
def letter : Language Char := upper + lower
def alphanum : Language Char := letter + digit

/-- `[A-Z][A-Za-z0-9]*` -/
def typeName : Language Char := upper * alphanum∗

/-- `[a-z][a-zA-Z0-9]*` -/
def camelName : Language Char := lower * alphanum∗

/-- `[A-Za-z_][A-Za-z0-9_]*` -/
def identifier : Language Char := (letter + just '_') * (alphanum + just '_')∗

/-- `[a-z][a-z0-9]*(-[a-z0-9]+)*` -/
def kebabName : Language Char :=
  lower * (lower + digit)∗ * (just '-' * ((lower + digit) * (lower + digit)∗))∗

/-! ## Single characters -/

/-- A language of single characters, told by a check. -/
def Decides (p : Char → Bool) (l : Language Char) : Prop := ∀ cs, cs ∈ l ↔ ∃ c, p c = true ∧ cs = [c]

namespace Decides

variable {p q : Char → Bool} {l m : Language Char}

theorem between {low high : Char} (h : ∀ c, p c = true ↔ low ≤ c ∧ c ≤ high) :
    Decides p (between low high) := by
  intro cs
  simp only [h, and_assoc]
  exact Iff.rfl

theorem upper : Decides Char.isUpper upper :=
  between fun _ => decide_eq_true_iff

theorem lower : Decides Char.isLower lower :=
  between fun _ => Bool.and_eq_true_iff.trans (and_congr decide_eq_true_iff decide_eq_true_iff)

theorem digit : Decides Char.isDigit digit :=
  between fun _ => Bool.and_eq_true_iff.trans (and_congr decide_eq_true_iff decide_eq_true_iff)

theorem just (a : Char) : Decides (· == a) (just a) := by
  intro cs
  show cs = [a] ↔ _
  simp

theorem add (hp : Decides p l) (hq : Decides q m) : Decides (fun c => p c || q c) (l + m) := by
  intro cs
  rw [Language.mem_add, hp cs, hq cs]
  simp only [Bool.or_eq_true]
  constructor
  · rintro (⟨c, hc, rfl⟩ | ⟨c, hc, rfl⟩)
    · exact ⟨c, .inl hc, rfl⟩
    · exact ⟨c, .inr hc, rfl⟩
  · rintro ⟨c, hc, rfl⟩
    exact hc.imp (fun h => ⟨c, h, rfl⟩) fun h => ⟨c, h, rfl⟩

theorem letter : Decides Char.isAlpha letter := upper.add lower

theorem alphanum : Decides Char.isAlphanum alphanum := letter.add digit

/-- One character and then a language. -/
theorem mem_mul_iff (h : Decides p l) {cs : List Char} :
    cs ∈ l * m ↔ ∃ c rest, cs = c :: rest ∧ p c = true ∧ rest ∈ m := by
  rw [Language.mem_mul]
  constructor
  · rintro ⟨a, ha, b, hb, rfl⟩
    obtain ⟨c, hc, rfl⟩ := (h a).mp ha
    exact ⟨c, b, rfl, hc, hb⟩
  · rintro ⟨c, rest, rfl, hc, hr⟩
    exact ⟨[c], (h _).mpr ⟨c, hc, rfl⟩, rest, hr, rfl⟩

theorem nil_notMem_mul (h : Decides p l) : [] ∉ l * m := by
  rw [h.mem_mul_iff]
  rintro ⟨c, rest, he, -⟩
  cases he

theorem cons_mem_mul_iff (h : Decides p l) {c : Char} {rest : List Char} :
    c :: rest ∈ l * m ↔ p c = true ∧ rest ∈ m := by
  rw [h.mem_mul_iff]
  constructor
  · rintro ⟨c', rest', he, hc, hr⟩
    cases he
    exact ⟨hc, hr⟩
  · rintro ⟨hc, hr⟩
    exact ⟨c, rest, rfl, hc, hr⟩

/-- A repetition of a character holds the texts of such characters. -/
theorem mem_kstar_iff (h : Decides p l) {cs : List Char} : cs ∈ l∗ ↔ cs.all p = true := by
  induction cs with
  | nil => simp [Language.nil_mem_kstar]
  | cons c rest ih =>
    rw [← Language.one_add_self_mul_kstar_eq_kstar, Language.mem_add, Language.mem_one,
      h.cons_mem_mul_iff, ih, List.all_cons, Bool.and_eq_true]
    simp

/-- A character and a repetition of others. -/
theorem mem_mul_kstar_iff (hp : Decides p l) (hq : Decides q m) {cs : List Char} :
    cs ∈ l * m∗ ↔ ∃ c rest, cs = c :: rest ∧ p c = true ∧ rest.all q = true := by
  simp only [hp.mem_mul_iff, hq.mem_kstar_iff]

end Decides

/-! ## Plain patterns -/

theorem mem_typeName_iff {cs : List Char} : cs ∈ typeName ↔ isTypeName cs = true := by
  unfold typeName isTypeName
  rw [Decides.upper.mem_mul_kstar_iff Decides.alphanum]
  cases cs with
  | nil => simp
  | cons c rest => simp

theorem mem_camelName_iff {cs : List Char} : cs ∈ camelName ↔ isCamelName cs = true := by
  unfold camelName isCamelName
  rw [Decides.lower.mem_mul_kstar_iff Decides.alphanum]
  cases cs with
  | nil => simp
  | cons c rest => simp

theorem mem_identifier_iff {cs : List Char} : cs ∈ identifier ↔ isEnumValue cs = true := by
  unfold identifier isEnumValue
  rw [(Decides.letter.add (.just '_')).mem_mul_kstar_iff (Decides.alphanum.add (.just '_'))]
  cases cs with
  | nil => simp
  | cons c rest => simp

/-! ## Words joined by a mark -/

/-- A character of a word of an index name. -/
def isWordChar (c : Char) : Bool := c.isLower || c.isDigit

/-- The rest of a word, and further words with a `-` before each. -/
def wordsFrom : Language Char :=
  (lower + digit)∗ * (just '-' * ((lower + digit) * (lower + digit)∗))∗

theorem decides_wordChar : Decides isWordChar (lower + digit) := Decides.lower.add Decides.digit

theorem not_isWordChar_dash : ¬ isWordChar '-' = true := by decide

/-- Between words the text goes on with a word's character, or with a `-` and another word. -/
theorem wordsFrom_eq :
    wordsFrom = 1 + (lower + digit) * wordsFrom + just '-' * ((lower + digit) * wordsFrom) := by
  have h : ∀ w d : Language Char, w∗ * (d * (w * w∗))∗ =
      1 + w * (w∗ * (d * (w * w∗))∗) + d * (w * (w∗ * (d * (w * w∗))∗)) := by
    intro w d
    have hw := Language.one_add_self_mul_kstar_eq_kstar w
    have hd := Language.one_add_self_mul_kstar_eq_kstar (d * (w * w∗))
    calc w∗ * (d * (w * w∗))∗ = (1 + w * w∗) * (d * (w * w∗))∗ := by rw [hw]
      _ = (d * (w * w∗))∗ + w * (w∗ * (d * (w * w∗))∗) := by rw [add_mul, one_mul, mul_assoc]
      _ = 1 + d * (w * (w∗ * (d * (w * w∗))∗)) + w * (w∗ * (d * (w * w∗))∗) := by
        nth_rewrite 1 [← hd]
        simp only [mul_assoc]
      _ = _ := by rw [add_right_comm]
  exact h _ _

theorem cons_mem_wordsFrom_iff {c : Char} {rest : List Char} :
    c :: rest ∈ wordsFrom ↔
      (isWordChar c = true ∧ rest ∈ wordsFrom) ∨ (c = '-' ∧ rest ∈ (lower + digit) * wordsFrom) := by
  rw [wordsFrom_eq, Language.mem_add, Language.mem_add, Language.mem_one,
    decides_wordChar.cons_mem_mul_iff, (Decides.just '-').cons_mem_mul_iff, ← wordsFrom_eq, beq_iff_eq]
  simp

/-- A whole word is the rest of one that starts with a word's character. -/
theorem mem_word_iff {cs : List Char} :
    cs ∈ (lower + digit) * wordsFrom ↔ cs.head?.any isWordChar = true ∧ cs ∈ wordsFrom := by
  cases cs with
  | nil => exact iff_of_false decides_wordChar.nil_notMem_mul (by simp)
  | cons c rest =>
    rw [decides_wordChar.cons_mem_mul_iff, cons_mem_wordsFrom_iff]
    constructor
    · rintro ⟨hc, hr⟩
      exact ⟨hc, .inl ⟨hc, hr⟩⟩
    · rintro ⟨hc, ⟨-, hr⟩ | ⟨rfl, -⟩⟩
      · exact ⟨hc, hr⟩
      · exact absurd hc not_isWordChar_dash

/-- A text starts with a word's character when its first stretch is a word that is not empty. -/
theorem head?_any_iff {cs first : List Char} {others : List (List Char)}
    (h : Text.splitAt '-' cs = first :: others) (hf : first.all isWordChar = true) :
    cs.head?.any isWordChar = true ↔ first ≠ [] := by
  cases cs with
  | nil =>
    cases h
    simp
  | cons c rest =>
    obtain ⟨first', others', hr⟩ := List.exists_cons_of_ne_nil (Text.splitAt_ne_nil '-' rest)
    rw [Text.splitAt] at h
    by_cases hc : c = '-'
    · rw [if_pos hc] at h
      cases h
      subst hc
      exact iff_of_false not_isWordChar_dash (not_not_intro rfl)
    · rw [if_neg hc, hr] at h
      cases h
      rw [List.all_cons, Bool.and_eq_true] at hf
      exact ⟨fun _ => List.cons_ne_nil _ _, fun _ => hf.1⟩

/-- The first stretch between marks is the rest of a word, and the others are whole words. -/
theorem mem_wordsFrom_iff {cs first : List Char} {others : List (List Char)}
    (h : Text.splitAt '-' cs = first :: others) :
    cs ∈ wordsFrom ↔
      first.all isWordChar = true ∧ ∀ run ∈ others, run ≠ [] ∧ run.all isWordChar = true := by
  induction cs generalizing first others with
  | nil =>
    cases h
    rw [wordsFrom_eq, Language.mem_add, Language.mem_add, Language.mem_one]
    simp
  | cons c rest ih =>
    obtain ⟨first', others', hr⟩ := List.exists_cons_of_ne_nil (Text.splitAt_ne_nil '-' rest)
    rw [Text.splitAt] at h
    rw [cons_mem_wordsFrom_iff]
    by_cases hc : c = '-'
    · -- a mark ends a word, here an empty rest, and the next stretch has to be a whole word
      rw [if_pos hc, hr] at h
      cases h
      rw [List.forall_mem_cons, mem_word_iff, ih hr]
      constructor
      · rintro (⟨hw, -⟩ | ⟨-, hh, hf, ho⟩)
        · exact absurd (hc ▸ hw) not_isWordChar_dash
        · exact ⟨rfl, ⟨(head?_any_iff hr hf).mp hh, hf⟩, ho⟩
      · rintro ⟨-, ⟨hne, hf⟩, ho⟩
        exact .inr ⟨hc, (head?_any_iff hr hf).mpr hne, hf, ho⟩
    · rw [if_neg hc, hr] at h
      cases h
      rw [List.all_cons, Bool.and_eq_true, ih hr]
      constructor
      · rintro (⟨hw, hf, ho⟩ | ⟨hd, -⟩)
        · exact ⟨⟨hw, hf⟩, ho⟩
        · exact absurd hd hc
      · rintro ⟨⟨hw, hf⟩, ho⟩
        exact .inl ⟨hw, hf, ho⟩

theorem isKebabName_iff {cs : List Char} :
    isKebabName cs = true ↔ cs.head?.any Char.isLower = true ∧
      ∀ run ∈ Text.splitAt '-' cs, run ≠ [] ∧ run.all isWordChar = true := by
  unfold isKebabName
  rw [Bool.and_eq_true, List.all_eq_true]
  refine and_congr_right' (forall₂_congr fun run _ => ?_)
  rw [Bool.and_eq_true, Bool.not_eq_true', ne_eq, List.isEmpty_eq_false_iff]
  exact Iff.rfl

theorem mem_kebabName_iff {cs : List Char} : cs ∈ kebabName ↔ isKebabName cs = true := by
  have hshape : kebabName = lower * wordsFrom := mul_assoc _ _ _
  rw [hshape, isKebabName_iff]
  cases cs with
  | nil => exact iff_of_false Decides.lower.nil_notMem_mul (by simp)
  | cons c rest =>
    obtain ⟨first, others, hr⟩ := List.exists_cons_of_ne_nil (Text.splitAt_ne_nil '-' (c :: rest))
    rw [Decides.lower.cons_mem_mul_iff, hr, List.forall_mem_cons, List.head?_cons, Option.any_some]
    refine and_congr_right fun hl => ?_
    have hw : isWordChar c = true := by
      rw [isWordChar, hl, Bool.true_or]
    constructor
    · intro hm
      obtain ⟨hf, ho⟩ := (mem_wordsFrom_iff hr).mp (cons_mem_wordsFrom_iff.mpr (.inl ⟨hw, hm⟩))
      exact ⟨⟨(head?_any_iff hr hf).mp hw, hf⟩, ho⟩
    · rintro ⟨⟨-, hf⟩, ho⟩
      rcases cons_mem_wordsFrom_iff.mp ((mem_wordsFrom_iff hr).mpr ⟨hf, ho⟩) with ⟨-, hm⟩ | ⟨he, -⟩
      · exact hm
      · exact absurd (he ▸ hw) not_isWordChar_dash

end SchemaGen.Pattern
