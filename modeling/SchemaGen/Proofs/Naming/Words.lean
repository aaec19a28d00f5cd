import Mathlib
import SchemaGen.Proofs.Naming.Modules

/-!
# Words read back

Words are put together in two ways: next to each other, with a `_` where two of them would merge, or with a
separator between all neighbours. Words that are read as themselves one by one are so from both. A word inside
which no other word starts is one of them; the words of a text become such words in every case that names are
written in, so that nothing is lost of them but their case.

Results:
1. `ne_nil_of_mem_split`, `isAlphanum_of_mem_split`: what the words of a text are like.
2. `split_append`: a text is read in two parts where a word starts.
3. `isChain_split`: what neighbours in a text are like.
4. `separates_eq_startsAfter`: which neighbours are read as themselves.
5. `split_compact`, `split_joinWith`: words put together are read as themselves.
-/

namespace SchemaGen.Naming

variable {prev w v : Word} {ws : List Word} {current before rest cs : List Char} {p c : Char}

/-! ## Letters and digits -/

/-- What holds of the first characters of two texts holds of that of both together. -/
theorem head?_append_of_head? {p : Char → Prop} {w after : List Char} (hw : ∀ c ∈ w.head?, p c)
    (hafter : ∀ c ∈ after.head?, p c) : ∀ c ∈ (w ++ after).head?, p c := by
  cases w with
  | nil => exact hafter
  | cons d rest => exact hw

theorem isAlphanum_toLower (c : Char) : c.toLower.isAlphanum = c.isAlphanum := by
  unfold Char.isAlphanum
  rw [Char.isAlpha_toLower_eq_isAlpha]
  by_cases h : c.isUpper = true
  · simp [Char.isAlpha, h]
  · rw [Char.toLower_eq_of_not_isUpper h]

/-- Letters are no digits. -/
theorem isDigit_eq_false {c : Char} (h : c.isAlpha = true) : c.isDigit = false := by
  refine Bool.eq_false_iff.mpr fun hdigit => ?_
  have hnine : '9'.val.toNat < 'A'.val.toNat ∧ '9'.val.toNat < 'a'.val.toNat := by decide
  simp only [Char.isAlpha, Char.isUpper, Char.isLower, Char.isDigit, Bool.or_eq_true, Bool.and_eq_true,
    decide_eq_true_eq, ge_iff_le, UInt32.le_iff_toNat_le] at h hdigit
  omega

theorem isAlphanum_toUpper {c : Char} (h : c.isAlphanum = true) : c.toUpper.isAlphanum = true := by
  unfold Char.isAlphanum at h ⊢
  rcases Bool.or_eq_true_iff.mp h with h | h
  · unfold Char.isAlpha
    rw [Char.isUpper_toUpper_eq_isAlpha, h, Bool.true_or, Bool.true_or]
  · have hlower : ¬ c.isLower = true := by
      intro hl
      rw [isDigit_eq_false (Bool.or_eq_true_iff.mpr (.inr hl))] at h
      cases h
    rw [Char.toUpper_eq_of_not_isLower hlower, h, Bool.or_true]

/-! ## Words in other cases -/

theorem lower_capitalize (w : Word) : lower (capitalize w) = lower w := by
  cases w with
  | nil => rfl
  | cons c rest => simp [lower, capitalize, Function.comp_def]

theorem capitalize_lower (w : Word) : capitalize (lower w) = capitalize w := by
  cases w with
  | nil => rfl
  | cons c rest => simp [lower, capitalize, Function.comp_def]

theorem lower_lower (w : Word) : lower (lower w) = lower w := by
  simp [lower, Function.comp_def]

theorem isAlphanum_lower (h : ∀ c ∈ w, c.isAlphanum = true) : ∀ c ∈ lower w, c.isAlphanum = true := by
  intro c hc
  obtain ⟨d, hd, rfl⟩ := List.mem_map.mp hc
  rw [isAlphanum_toLower]
  exact h d hd

theorem isAlphanum_capitalize (h : ∀ c ∈ w, c.isAlphanum = true) :
    ∀ c ∈ capitalize w, c.isAlphanum = true := by
  cases w with
  | nil => exact h
  | cons d rest =>
    obtain ⟨hd, hrest⟩ := List.forall_mem_cons.mp h
    exact List.forall_mem_cons.mpr ⟨isAlphanum_toUpper hd, isAlphanum_lower hrest⟩

/-! ## The words of a text -/

/-- What holds of the word that has been read so far and is kept by every letter and digit that goes on with
it, and holds of each of them by itself, holds of every word. -/
theorem forall_mem_splitFrom {P : Word → Prop} (hstart : ∀ c, c.isAlphanum = true → P [c])
    (hstep : ∀ w c, P w → c.isAlphanum = true → P (w ++ [c])) (h : current = [] ∨ P current.reverse) :
    ∀ w ∈ splitFrom current cs, P w := by
  have hflush : ∀ {current : List Char}, (current = [] ∨ P current.reverse) → ∀ w ∈ flush current, P w := by
    intro current hcurrent w hw
    unfold flush at hw
    split at hw
    · cases hw
    · next hne =>
      rw [List.mem_singleton.mp hw]
      exact hcurrent.resolve_left fun hnil => hne (List.isEmpty_iff.mpr hnil)
  induction cs generalizing current with
  | nil => exact hflush h
  | cons d rest ih =>
    unfold splitFrom
    split
    · next hd =>
      split
      · exact ih (.inr (hstart d hd))
      · next prev before =>
        have hprev : P (prev :: before).reverse := h.resolve_left (List.cons_ne_nil _ _)
        split
        · exact List.forall_mem_cons.mpr ⟨hprev, ih (.inr (hstart d hd))⟩
        · refine ih (.inr ?_)
          rw [List.reverse_cons]
          exact hstep _ d hprev hd
    · exact List.forall_mem_append.mpr ⟨hflush h, ih (.inl rfl)⟩

theorem forall_mem_split {P : Word → Prop} (hstart : ∀ c, c.isAlphanum = true → P [c])
    (hstep : ∀ w c, P w → c.isAlphanum = true → P (w ++ [c])) : ∀ w ∈ split cs, P w :=
  forall_mem_splitFrom hstart hstep (.inl rfl)

/-- Words hold letters and digits. -/
theorem isAlphanum_of_mem_split : ∀ w ∈ split cs, ∀ c ∈ w, c.isAlphanum = true :=
  forall_mem_split (fun _ hc => List.forall_mem_singleton.mpr hc) fun _ _ hw hc =>
    List.forall_mem_append.mpr ⟨hw, List.forall_mem_singleton.mpr hc⟩

theorem ne_nil_of_mem_split : ∀ w ∈ split cs, w ≠ [] :=
  forall_mem_split (fun _ _ => List.cons_ne_nil _ _) fun _ _ _ _ => by simp

/-! ## Texts in parts -/

theorem split_cons {c : Char} (h : c.isAlphanum = true) (cs : List Char) :
    split (c :: cs) = splitFrom [c] cs := by
  unfold split
  conv_lhs => unfold splitFrom
  rw [if_pos h]

theorem splitFrom_nil (p : Char) (before : List Char) :
    splitFrom (p :: before) [] = [(p :: before).reverse] := by simp [splitFrom, flush]

theorem splitFrom_cons {p c : Char} (h : c.isAlphanum = true) (before cs : List Char) :
    splitFrom (p :: before) (c :: cs) = if startsWord p c cs.head? then (p :: before).reverse :: splitFrom [c] cs
      else splitFrom (c :: p :: before) cs := by
  conv_lhs => unfold splitFrom
  rw [if_pos h]

theorem isAlphanum_of_isUpper (h : c.isUpper = true) : c.isAlphanum = true := by
  unfold Char.isAlphanum Char.isAlpha
  rw [h, Bool.true_or, Bool.true_or]

theorem isUpper_of_startsWord {next : Option Char} (h : startsWord p c next = true) : c.isUpper = true :=
  (Bool.and_eq_true_iff.mp h).1

/-- What follows matters to the start of a word only if it is in lower case. -/
theorem startsWord_upper (p c : Char) {d : Char} (h : d.isUpper = true) :
    startsWord p c (some d) = startsWord p c none := by
  have hlower : d.isLower = false := Bool.eq_false_iff.mpr (Char.not_isLower_of_isUpper h)
  unfold startsWord
  rw [Option.any_some, Option.any_none, hlower]

theorem splitFrom_append {q : Char} (hcs : ∀ d ∈ cs, d.isAlphanum = true) (hq : (p :: cs).getLast? = some q)
    (h : startsWord q c rest.head? = true) :
    splitFrom (p :: before) (cs ++ c :: rest) = splitFrom (p :: before) cs ++ split (c :: rest) := by
  have hupper := isUpper_of_startsWord h
  have hc := isAlphanum_of_isUpper hupper
  induction cs generalizing p before with
  | nil =>
    rw [List.getLast?_singleton, Option.some.injEq] at hq
    subst hq
    rw [List.nil_append, splitFrom_cons hc, if_pos h, split_cons hc, splitFrom_nil, List.singleton_append]
  | cons d more ih =>
    obtain ⟨hd, hmore⟩ := List.forall_mem_cons.mp hcs
    rw [List.getLast?_cons_cons] at hq
    have hhead : startsWord p d (more ++ c :: rest).head? = startsWord p d more.head? := by
      cases more with
      | nil => exact startsWord_upper p d hupper
      | cons e others => rfl
    rw [List.cons_append, splitFrom_cons hd, splitFrom_cons hd, hhead]
    split
    · rw [ih hmore hq, List.cons_append]
    · exact ih hmore hq

/-- A text is read in two parts where a word starts. -/
theorem split_append (hcs : ∀ d ∈ cs, d.isAlphanum = true) (hp : cs.getLast? = some p)
    (h : startsWord p c rest.head? = true) : split (cs ++ c :: rest) = split cs ++ split (c :: rest) := by
  cases cs with
  | nil => cases hp
  | cons d more =>
    obtain ⟨hd, hmore⟩ := List.forall_mem_cons.mp hcs
    rw [List.cons_append, split_cons hd, split_cons hd, splitFrom_append hmore hp h]

/-! ## Neighbours -/

/-- The first word goes on as the text does, up to the next word. -/
theorem exists_splitFrom_eq (p : Char) (before : List Char) (hcs : ∀ d ∈ cs, d.isAlphanum = true) :
    ∃ more ws, splitFrom (p :: before) cs = ((p :: before).reverse ++ more) :: ws ∧
      ∀ q d, startsWord q d more.head? = startsWord q d cs.head? := by
  induction cs generalizing p before with
  | nil => exact ⟨[], [], by rw [splitFrom_nil, List.append_nil], fun _ _ => rfl⟩
  | cons c rest ih =>
    obtain ⟨hc, hrest⟩ := List.forall_mem_cons.mp hcs
    rw [splitFrom_cons hc]
    split
    · next h =>
      exact ⟨[], _, by rw [List.append_nil], fun q d => (startsWord_upper q d (isUpper_of_startsWord h)).symm⟩
    · obtain ⟨more, ws, heq, -⟩ := ih c (p :: before) hrest
      refine ⟨c :: more, ws, ?_, fun _ _ => rfl⟩
      rw [heq, List.reverse_cons, List.append_assoc]
      rfl

/-- Whether a word starts at the first letter of `w`, which follows `prev`. -/
def startsAfter (prev w : Word) : Bool :=
  match prev.getLast?, w with
  | some p, c :: rest => startsWord p c rest.head?
  | _, _ => false

theorem startsAfter_append (init : List Char) (p c : Char) (rest : List Char) :
    startsAfter (init ++ [p]) (c :: rest) = startsWord p c rest.head? := by
  unfold startsAfter
  rw [List.getLast?_append_of_ne_nil _ (List.cons_ne_nil _ _)]
  rfl

/-- Where a word starts at the end of a text, it does so as well when the text goes on. -/
theorem startsWord_append {p c : Char} {rest : List Char} (h : startsWord p c rest.head? = true)
    (cs : List Char) : startsWord p c (rest ++ cs).head? = true := by
  cases rest with
  | nil =>
    unfold startsWord at h ⊢
    simp only [List.head?_nil, Option.any_none, Bool.and_false, Bool.or_false] at h
    rw [Bool.and_eq_true] at h ⊢
    exact ⟨h.1, by rw [h.2, Bool.true_or]⟩
  | cons d more => exact h

/-- In letters and digits every further word starts where one starts after the word before it. -/
theorem isChain_splitFrom (hcs : ∀ d ∈ cs, d.isAlphanum = true) :
    (splitFrom (p :: before) cs).IsChain fun w v => startsAfter w v = true := by
  induction cs generalizing p before with
  | nil =>
    rw [splitFrom_nil]
    exact .singleton _
  | cons c rest ih =>
    obtain ⟨hc, hrest⟩ := List.forall_mem_cons.mp hcs
    rw [splitFrom_cons hc]
    split
    · next h =>
      obtain ⟨more, ws, heq, hhead⟩ := exists_splitFrom_eq c [] hrest
      have hnext : (splitFrom [c] rest).IsChain fun w v => startsAfter w v = true := ih hrest
      rw [heq] at hnext ⊢
      refine List.isChain_cons_cons.mpr ⟨?_, hnext⟩
      rw [List.reverse_cons]
      exact (startsAfter_append _ _ _ _).trans ((hhead p c).trans h)
    · exact ih hrest

theorem isChain_split (hcs : ∀ d ∈ cs, d.isAlphanum = true) :
    (split cs).IsChain fun w v => startsAfter w v = true := by
  cases cs with
  | nil => exact .nil
  | cons c rest =>
    obtain ⟨hc, hrest⟩ := List.forall_mem_cons.mp hcs
    rw [split_cons hc]
    exact isChain_splitFrom hrest

/-! ## Unbroken words -/

/-- A letter or digit, and then letters in lower case and digits, so that no word starts inside. -/
def Unbroken : Word → Prop
  | [] => False
  | c :: rest => c.isAlphanum = true ∧ ∀ d ∈ rest, d.isAlphanum = true ∧ d.isUpper = false

theorem Unbroken.isAlphanum (h : Unbroken w) : ∀ c ∈ w, c.isAlphanum = true := by
  cases w with
  | nil => exact h.elim
  | cons c rest => exact List.forall_mem_cons.mpr ⟨h.1, fun d hd => (h.2 d hd).1⟩

/-- A word is unbroken where all but its first character is in lower case. -/
theorem unbroken_cons_lower (hc : c.isAlphanum = true) (hrest : ∀ d ∈ rest, d.isAlphanum = true) :
    Unbroken (c :: lower rest) := by
  refine ⟨hc, fun d hd => ⟨isAlphanum_lower hrest d hd, ?_⟩⟩
  obtain ⟨e, -, rfl⟩ := List.mem_map.mp hd
  exact Char.isUpper_toLower_eq_false e

/-- So is a word in lower case, and one in lower case but for its first letter. -/
theorem unbroken_lower_capitalize (hne : w ≠ []) (h : ∀ c ∈ w, c.isAlphanum = true) :
    Unbroken (lower w) ∧ Unbroken (capitalize w) := by
  obtain ⟨c, rest, rfl⟩ := List.exists_cons_of_ne_nil hne
  obtain ⟨hc, hrest⟩ := List.forall_mem_cons.mp h
  exact ⟨unbroken_cons_lower ((isAlphanum_toLower c).trans hc) hrest,
    unbroken_cons_lower (isAlphanum_toUpper hc) hrest⟩

/-- No word starts where nothing is in upper case. -/
theorem splitFrom_of_tail (h : ∀ d ∈ rest, d.isAlphanum = true ∧ d.isUpper = false) (p : Char)
    (before : List Char) : splitFrom (p :: before) rest = [(p :: before).reverse ++ rest] := by
  induction rest generalizing p before with
  | nil => rw [splitFrom_nil, List.append_nil]
  | cons d more ih =>
    obtain ⟨⟨halnum, hupper⟩, hmore⟩ := List.forall_mem_cons.mp h
    have hstart : startsWord p d more.head? = false := by
      unfold startsWord
      rw [hupper, Bool.false_and]
    rw [splitFrom_cons halnum, hstart, if_neg Bool.false_ne_true, ih hmore, List.reverse_cons,
      List.append_assoc, List.singleton_append]

/-- An unbroken word is its only word. -/
theorem Unbroken.split_eq (h : Unbroken w) : split w = [w] := by
  cases w with
  | nil => exact h.elim
  | cons c rest =>
    rw [split_cons h.1, splitFrom_of_tail h.2]
    rfl

/-! ## Words next to each other -/

theorem isAlphanum_of_split_eq (h : split w = [w]) : ∀ c ∈ w, c.isAlphanum = true :=
  isAlphanum_of_mem_split w (by rw [h]; exact List.mem_singleton_self w)

/-- A text is read in two parts where a word starts after another one. -/
theorem split_append_of_startsAfter (hw : ∀ c ∈ w, c.isAlphanum = true) (h : startsAfter w v = true)
    (cs : List Char) : split (w ++ (v ++ cs)) = split w ++ split (v ++ cs) := by
  unfold startsAfter at h
  split at h
  · next p c rest hp =>
    rw [List.cons_append]
    exact split_append hw hp (startsWord_append h cs)
  · cases h

/-- Words that follow each other are read as themselves exactly if a word starts at the second one. -/
theorem separates_eq_startsAfter (hprev : split prev = [prev]) (hw : split w = [w]) :
    separates prev w = startsAfter prev w := by
  have halnum := isAlphanum_of_split_eq hprev
  unfold separates
  rw [Bool.eq_iff_iff, beq_iff_eq]
  constructor
  · intro hread
    have hchain := isChain_split (List.forall_mem_append.mpr ⟨halnum, isAlphanum_of_split_eq hw⟩)
    rw [hread] at hchain
    exact (List.isChain_cons_cons.mp hchain).1
  · intro h
    have hread := split_append_of_startsAfter halnum h []
    rw [List.append_nil, hprev, hw] at hread
    exact hread

theorem split_append_compactAfter (hprev : split prev = [prev]) (hws : ∀ w ∈ ws, split w = [w]) :
    split (prev ++ compactAfter prev ws) = prev :: ws := by
  induction ws generalizing prev with
  | nil => rw [compactAfter, List.append_nil, hprev]
  | cons w rest ih =>
    obtain ⟨hw, hrest⟩ := List.forall_mem_cons.mp hws
    unfold compactAfter
    split
    · next h =>
      rw [separates_eq_startsAfter hprev hw] at h
      rw [split_append_of_startsAfter (isAlphanum_of_split_eq hprev) h, hprev, ih hw hrest,
        List.singleton_append]
    · rw [List.cons_append, split_append_separator (by decide), hprev, ih hw hrest, List.singleton_append]

/-- Words that are read as themselves are read again from what they are put together to. -/
theorem split_compact (h : ∀ w ∈ ws, split w = [w]) : split (compact ws) = ws := by
  cases ws with
  | nil => rfl
  | cons w rest =>
    obtain ⟨hw, hrest⟩ := List.forall_mem_cons.mp h
    exact split_append_compactAfter hw hrest

/-! ## Words with a separator between them -/

theorem joinWith_cons {sep : Char} (w : Word) (h : ws ≠ []) :
    joinWith sep (w :: ws) = w ++ sep :: joinWith sep ws := joinWith.eq_3 _ _ _ h

/-- Words that are read as themselves are read again between separators. -/
theorem split_joinWith {sep : Char} (hsep : sep.isAlphanum = false) (h : ∀ w ∈ ws, split w = [w]) :
    split (joinWith sep ws) = ws := by
  induction ws with
  | nil => rfl
  | cons w rest ih =>
    obtain ⟨hw, hrest⟩ := List.forall_mem_cons.mp h
    by_cases hlast : rest = []
    · rw [hlast]
      exact hw
    · rw [joinWith_cons w hlast, split_append_separator hsep, hw, ih hrest, List.singleton_append]

end SchemaGen.Naming
