import Mathlib.Data.List.Infix
import SchemaGen.Proofs.Text.Lines

/-!
# Parts of texts

Where a pattern occurs in a text, and what becomes of its occurrences when they are replaced from the left.

Results:
1. `replaceChars_append`, `replaceChars_cons`: what replacing does at the start of a text.
2. `occurrences_eq_zero_iff`: a pattern that does not occur is no part of the text.
3. `occurrences_append`: a pair of characters occurs in two texts one after another as often as in both.
4. `infix_of_mem_lineChars`: the lines of a text are parts of it.
-/

namespace SchemaGen.Text

variable {pattern new cs front back : List Char} {a b c : Char}

/-! ## Replacing -/

/-- There are enough steps when there is one for each character. -/
theorem replaceFrom_congr {n m : Nat} (hn : cs.length ≤ n) (hm : cs.length ≤ m) :
    replaceFrom pattern new n cs = replaceFrom pattern new m cs := by
  induction n generalizing cs m with
  | zero =>
    rw [List.length_eq_zero_iff.mp (Nat.le_zero.mp hn)]
    cases m <;> rfl
  | succ n ih =>
    cases cs with
    | nil => cases m <;> rfl
    | cons c rest =>
      cases m with
      | zero => cases hm
      | succ m =>
        rw [List.length_cons] at hn hm
        unfold replaceFrom
        split
        · next h =>
          have hne : pattern ≠ [] := by simpa using (Bool.and_eq_true_iff.mp h).2
          have hdrop : ((c :: rest).drop pattern.length).length ≤ rest.length := by
            have := List.length_pos_iff.mpr hne
            rw [List.length_drop, List.length_cons]
            omega
          rw [ih (by omega) (show _ ≤ m by omega)]
        · rw [ih (by omega) (show _ ≤ m by omega)]

/-- A pattern at the start of the text is replaced. -/
theorem replaceChars_append (h : pattern ≠ []) (cs : List Char) :
    replaceChars pattern new (pattern ++ cs) = new ++ replaceChars pattern new cs := by
  obtain ⟨c, rest, rfl⟩ := List.exists_cons_of_ne_nil h
  have hprefix : (c :: rest).isPrefixOf (c :: rest ++ cs) = true :=
    List.isPrefixOf_iff_prefix.mpr (List.prefix_append _ _)
  unfold replaceChars
  rw [List.cons_append, List.length_cons, replaceFrom, ← List.cons_append, hprefix, List.isEmpty_cons,
    if_pos (by rfl), List.drop_left, replaceFrom_congr (by simp) le_rfl]

/-- What does not start with the pattern starts as before. -/
theorem replaceChars_cons (h : ¬ pattern <+: c :: cs) :
    replaceChars pattern new (c :: cs) = c :: replaceChars pattern new cs := by
  have hprefix : pattern.isPrefixOf (c :: cs) = false := by
    rw [Bool.eq_false_iff, ne_eq, List.isPrefixOf_iff_prefix]
    exact h
  unfold replaceChars
  rw [List.length_cons, replaceFrom, hprefix, Bool.false_and, if_neg Bool.false_ne_true]

/-! ## Occurrences -/

/-- At how many places of a text the pattern occurs. -/
def occurrences (pattern cs : List Char) : Nat := cs.tails.countP fun tail => pattern.isPrefixOf tail

theorem occurrences_cons (pattern : List Char) (c : Char) (cs : List Char) :
    occurrences pattern (c :: cs) =
      occurrences pattern cs + if pattern.isPrefixOf (c :: cs) then 1 else 0 := by
  unfold occurrences
  rw [List.tails_cons, List.countP_cons]

theorem occurrences_eq_zero_iff : occurrences pattern cs = 0 ↔ ¬ pattern <:+: cs := by
  unfold occurrences
  rw [List.countP_eq_zero, List.infix_iff_prefix_suffix, not_exists]
  refine forall_congr' fun tail => ?_
  rw [List.mem_tails, List.isPrefixOf_iff_prefix, not_and']

theorem occurrences_eq_zero_of_part (h : occurrences pattern cs = 0) (hpart : front <:+: cs) :
    occurrences pattern front = 0 :=
  occurrences_eq_zero_iff.mpr fun hin => occurrences_eq_zero_iff.mp h (hin.trans hpart)

theorem occurrences_eq_zero_of_not_mem (ha : a ∈ pattern) (h : a ∉ cs) : occurrences pattern cs = 0 :=
  occurrences_eq_zero_iff.mpr fun hin => h (hin.subset ha)

/-- A pair of characters occurs in a text as often as in its two parts, if it does not stand where they meet. -/
theorem occurrences_append (h : front.getLast? ≠ some a ∨ back.head? ≠ some b) :
    occurrences [a, b] (front ++ back) = occurrences [a, b] front + occurrences [a, b] back := by
  induction front with
  | nil => exact (Nat.zero_add _).symm
  | cons c rest ih =>
    cases rest with
    | nil =>
      have hmeet : [a, b].isPrefixOf (c :: back) = false := by
        cases back with
        | nil => simp [List.isPrefixOf]
        | cons d more =>
          simp only [List.getLast?_singleton, List.head?_cons, ne_eq, Option.some.injEq] at h
          simp only [List.isPrefixOf, Bool.and_true, Bool.and_eq_false_iff, beq_eq_false_iff_ne, ne_eq]
          exact h.imp (mt Eq.symm) (mt Eq.symm)
      rw [List.singleton_append, occurrences_cons, hmeet]
      simp [occurrences, List.isPrefixOf]
    | cons d more =>
      rw [List.getLast?_cons_cons] at h
      rw [List.cons_append, occurrences_cons, ih h, occurrences_cons [a, b] c,
        show [a, b].isPrefixOf (c :: (d :: more ++ back)) = [a, b].isPrefixOf (c :: d :: more) from rfl]
      omega

/-- A pair does not occur in parts one after another if it occurs in none and does not stand where they meet. -/
theorem occurrences_flatMap {α : Type} {f : α → List Char} {parts : List α}
    (h : ∀ part ∈ parts, occurrences [a, b] (f part) = 0 ∧ (f part).getLast? ≠ some a) :
    occurrences [a, b] (parts.flatMap f) = 0 := by
  induction parts with
  | nil => simp [occurrences, List.isPrefixOf]
  | cons part rest ih =>
    obtain ⟨⟨hnone, hlast⟩, hrest⟩ := List.forall_mem_cons.mp h
    rw [List.flatMap_cons, occurrences_append (.inl hlast), hnone, ih hrest]

/-! ## Lines -/

/-- The text of the trimmed lines of a text, with an indent each. -/
theorem toList_unlines_lines (indent text : String) :
    (unlines ((lines text).map fun l => indent ++ trimEnd l)).toList =
      (lineChars text.toList).flatMap fun l => indent.toList ++ trimRight l ++ ['\n'] := by
  unfold lines trimEnd
  rw [toList_unlines, List.flatMap_map, List.flatMap_map]
  refine List.flatMap_congr fun l _ => ?_
  rw [String.toList_append, String.toList_ofList, String.toList_ofList]

theorem prefix_dropReturn (cs : List Char) : dropReturn cs <+: cs := by
  induction cs using dropReturn.induct with
  | case1 => exact List.prefix_rfl
  | case2 => exact List.nil_prefix
  | case3 c rest hne ih =>
    rw [dropReturn.eq_3 _ _ hne]
    exact List.cons_prefix_cons.mpr ⟨rfl, ih⟩

theorem infix_of_mem_linesFrom {current line : List Char} (h : line ∈ linesFrom current cs) :
    line <:+: current.reverse ++ cs := by
  induction cs generalizing current with
  | nil =>
    unfold linesFrom at h
    split at h
    · cases h
    · rw [List.mem_singleton.mp h, List.append_nil]
  | cons c rest ih =>
    unfold linesFrom at h
    split at h
    · rcases List.mem_cons.mp h with rfl | h
      · exact ((prefix_dropReturn _).trans (List.prefix_append _ _)).isInfix
      · exact (ih h).trans ((List.suffix_cons c rest).trans (List.suffix_append _ _)).isInfix
    · have hrest := ih h
      rw [List.reverse_cons, List.append_assoc] at hrest
      exact hrest

/-- The lines of a text are parts of it. -/
theorem infix_of_mem_lineChars {line : List Char} (h : line ∈ lineChars cs) : line <:+: cs :=
  infix_of_mem_linesFrom h

theorem infix_flatMap {α : Type} {part : α} {parts : List α} (h : part ∈ parts) (f : α → List Char) :
    f part <:+: parts.flatMap f := by
  rw [List.flatMap_def]
  exact List.infix_of_mem_flatten (List.mem_map_of_mem h)

theorem prefix_trimRight (cs : List Char) : trimRight cs <+: cs := by
  have hsuffix := List.dropWhile_suffix isBlank (l := cs.reverse)
  rw [← List.reverse_prefix, List.reverse_reverse] at hsuffix
  exact hsuffix

end SchemaGen.Text
