import SchemaGen.Proofs.Naming.Conversions

/-!
# Texts and their words

A text is read as words by the case of its letters. What it is made of besides letters and digits is lost, and
nothing else: the words follow each other as they do in the text, and none of them would be read as several
words. Where a word starts depends on the character before it and on the one after it. Inside of a word both
are at hand when the word is read by itself, but for what follows its last character; and to miss that one can
only take the start of a word away.

Words are put together by looking at two neighbours at a time. This is enough whatever the words are, as long
as each is read as itself.

Results:
1. `flatten_split`: the words of a text hold its letters and digits, in order.
2. `split_of_mem_split`: each of the words is read as itself.
3. `split_lossless`: both, with the way back.
-/

namespace SchemaGen

open Computability

namespace Pattern

/-- `[A-Za-z0-9][a-z0-9]*` -/
def firstSegment : Language Char := alphanum * (lower + digit)∗

/-- `[A-Z0-9][a-z0-9]*` -/
def segment : Language Char := (upper + digit) * (lower + digit)∗

end Pattern

namespace Naming

variable {w : Word} {ws : List Word} {current cs : List Char}

/-! ## The words of a text -/

theorem flatten_flush (current : List Char) : (flush current).flatten = current.reverse := by
  unfold flush
  split
  · next h => rw [List.isEmpty_iff.mp h]; rfl
  · exact List.append_nil _

theorem flatten_splitFrom (current cs : List Char) :
    (splitFrom current cs).flatten = current.reverse ++ cs.filter Char.isAlphanum := by
  induction cs generalizing current with
  | nil => exact (flatten_flush current).trans (List.append_nil _).symm
  | cons c rest ih =>
    by_cases hc : c.isAlphanum = true
    · rw [List.filter_cons_of_pos hc]
      cases current with
      | nil => exact (congrArg List.flatten (split_cons hc rest)).trans (ih [c])
      | cons p before =>
        rw [splitFrom_cons hc]
        split
        · rw [List.flatten_cons, ih]
          rfl
        · rw [ih, List.reverse_cons, List.append_assoc]
          rfl
    · rw [List.filter_cons_of_neg hc]
      unfold splitFrom
      rw [if_neg hc, List.flatten_append, flatten_flush, ih]
      rfl

/-- The words of a text hold its letters and digits, in order. -/
theorem flatten_split (cs : List Char) : (split cs).flatten = cs.filter Char.isAlphanum :=
  flatten_splitFrom [] cs

/-- What was read so far is read by itself in the same way, up to where it goes on: as the text does, or not at
all. -/
def IsOpen (current cs : List Char) : Prop :=
  ∀ ds : List Char, ds = [] ∨ ds.head? = cs.head? → split (current.reverse ++ ds) = splitFrom current ds

theorem IsOpen.split_of_mem_flush (h : IsOpen current cs) : ∀ w ∈ flush current, split w = [w] := by
  intro w hw
  have hread := h [] (.inl rfl)
  unfold flush at hw
  split at hw
  · cases hw
  · next hne =>
    rw [List.append_nil, splitFrom, flush, if_neg hne, ← List.mem_singleton.mp hw] at hread
    exact hread

/-- A character at which no word starts goes on with what was read. -/
theorem IsOpen.cons {p c : Char} {before rest : List Char} (h : IsOpen (p :: before) (c :: rest))
    (hc : c.isAlphanum = true) (hstart : startsWord p c rest.head? = false) :
    IsOpen (c :: p :: before) rest := by
  intro ds hds
  -- no word starts at the character either where the text ends after it
  have hsame : startsWord p c ds.head? = false := by
    rcases hds with rfl | hds
    · refine Bool.eq_false_iff.mpr fun hend => ?_
      have hstarts : startsWord p c ([] ++ rest).head? = true := startsWord_append hend rest
      exact Bool.eq_false_iff.mp hstart hstarts
    · rw [hds, hstart]
  have hread := h (c :: ds) (.inr rfl)
  rw [splitFrom_cons hc, hsame, if_neg Bool.false_ne_true] at hread
  rw [List.reverse_cons, List.append_assoc]
  exact hread

theorem split_of_mem_splitFrom (h : IsOpen current cs) : ∀ w ∈ splitFrom current cs, split w = [w] := by
  induction cs generalizing current with
  | nil => exact h.split_of_mem_flush
  | cons c rest ih =>
    by_cases hc : c.isAlphanum = true
    · have hstart : IsOpen [c] rest := fun ds _ => split_cons hc ds
      cases current with
      | nil =>
        rw [show splitFrom [] (c :: rest) = splitFrom [c] rest from split_cons hc rest]
        exact ih hstart
      | cons p before =>
        rw [splitFrom_cons hc]
        split
        · refine List.forall_mem_cons.mpr ⟨?_, ih hstart⟩
          exact h.split_of_mem_flush _ List.mem_cons_self
        · next hnone => exact ih (h.cons hc (Bool.eq_false_iff.mpr hnone))
    · unfold splitFrom
      rw [if_neg hc]
      exact List.forall_mem_append.mpr ⟨h.split_of_mem_flush, ih fun _ _ => rfl⟩

/-- Each word of a text is read as itself. -/
theorem split_of_mem_split : ∀ w ∈ split cs, split w = [w] :=
  split_of_mem_splitFrom fun _ _ => rfl

/-! ## Words put together -/

/-- A letter or digit, and then letters in lower case and digits, whichever characters may come first. -/
theorem unbroken_of_mem_mul {p : Char → Bool} {l : Language Char} (hl : Pattern.Decides p l)
    (hp : ∀ c, p c = true → c.isAlphanum = true) (h : w ∈ l * (Pattern.lower + Pattern.digit)∗) :
    Unbroken w := by
  obtain ⟨c, rest, rfl, hc, hrest⟩ := (hl.mem_mul_kstar_iff Pattern.decides_wordChar).mp h
  exact ⟨hp c hc, fun d hd => isWordChar_iff.mp (List.all_eq_true.mp hrest d hd)⟩

theorem unbroken_of_mem_firstSegment (h : w ∈ Pattern.firstSegment) : Unbroken w :=
  unbroken_of_mem_mul Pattern.Decides.alphanum (fun _ hc => hc) h

theorem unbroken_of_mem_segment (h : w ∈ Pattern.segment) : Unbroken w := by
  refine unbroken_of_mem_mul (Pattern.Decides.upper.add Pattern.Decides.digit) (fun c hc => ?_) h
  unfold Char.isAlphanum Char.isAlpha
  rcases Bool.or_eq_true_iff.mp hc with hc | hc <;> simp [hc]

/-- The words of a text are not empty, hold letters and digits and are each read as themselves; one after
another they are the letters and digits of the text, and they are read again from what they are put together
to. So are words that start with a letter in upper case or a digit and go on in lower case and digits, of which
the first one may start in lower case, too. -/
theorem split_lossless :
    (∀ cs : List Char,
      (∀ w ∈ split cs, w ≠ [] ∧ (∀ c ∈ w, c.isAlphanum = true) ∧ split w = [w]) ∧
        (split cs).flatten = cs.filter Char.isAlphanum ∧ split (compact (split cs)) = split cs) ∧
      ∀ ws : List Word, (∀ w ∈ ws.head?, w ∈ Pattern.firstSegment) → (∀ w ∈ ws.tail, w ∈ Pattern.segment) →
        split (compact ws) = ws := by
  refine ⟨fun cs => ⟨fun w hw => ?_, flatten_split cs, split_compact split_of_mem_split⟩, fun ws hfirst hrest => ?_⟩
  · exact ⟨ne_nil_of_mem_split w hw, isAlphanum_of_mem_split w hw, split_of_mem_split w hw⟩
  · refine split_compact fun w hw => ?_
    cases ws with
    | nil => cases hw
    | cons first rest =>
      rcases List.mem_cons.mp hw with rfl | hw
      · exact (unbroken_of_mem_firstSegment (hfirst w rfl)).split_eq
      · exact (unbroken_of_mem_segment (hrest w hw)).split_eq

/-- Single letters and words that start with a digit, one after another. -/
theorem split_lossless_letters :
    let ws := ["x".toList, "H".toList, "2b".toList, "C".toList, "D".toList, "Ef".toList]
    (∀ w ∈ ws.head?, w ∈ Pattern.firstSegment) ∧ (∀ w ∈ ws.tail, w ∈ Pattern.segment) ∧
      compact ws = "xH_2bC_DEf".toList ∧ split (compact ws) = ws := by
  intro ws
  have hfirst : ∀ w ∈ ws.head?, w ∈ Pattern.firstSegment := by
    rintro w ⟨⟩
    exact (Pattern.Decides.alphanum.mem_mul_kstar_iff Pattern.decides_wordChar).mpr ⟨'x', [], rfl, rfl, rfl⟩
  have hrest : ∀ w ∈ ws.tail, w ∈ Pattern.segment := by
    have hone : ∀ (c : Char) (rest : List Char), (c.isUpper || c.isDigit) = true →
        rest.all Pattern.isWordChar = true → c :: rest ∈ Pattern.segment := fun c rest hc hrest =>
      ((Pattern.Decides.upper.add Pattern.Decides.digit).mem_mul_kstar_iff Pattern.decides_wordChar).mpr
        ⟨c, rest, rfl, hc, hrest⟩
    simp only [ws, List.tail_cons, List.forall_mem_cons]
    exact ⟨hone _ _ rfl rfl, hone _ _ rfl rfl, hone _ _ rfl rfl, hone _ _ rfl rfl, hone _ _ rfl rfl, by simp⟩
  exact ⟨hfirst, hrest, by decide, split_lossless.2 ws hfirst hrest⟩

end Naming

end SchemaGen
