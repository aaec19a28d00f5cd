import SchemaGen.Model.Shape
import SchemaGen.Naming.HostIdent

/-!
# Names of modules

A file of the host models is declared as a module, whose name is the snake case of what the file holds
and of its kind. Words do not cross what separates them, so that the module of a type name and a kind is
the snake case of the name with the kind after it: two files of one kind share a module exactly when
their type names share their snake case, and files of different kinds do not share one.

Results:
1. `isAlphanum_of_isTypeName`: what type names are made of.
2. `splitFrom_append_separator`, `splitFrom_map_separators`: words are separated.
3. `hostModule_eq_toSnake`, `hostModule_append`: the module of a file.
-/

namespace SchemaGen

/-- Type names are made of letters and digits. -/
theorem isAlphanum_of_isTypeName {cs : List Char} (h : isTypeName cs = true) :
    ∀ c ∈ cs, c.isAlphanum = true := by
  cases cs with
  | nil => cases h
  | cons c rest =>
    obtain ⟨hupper, hrest⟩ := Bool.and_eq_true_iff.mp h
    intro d hd
    rcases List.mem_cons.mp hd with rfl | hd
    · show (d.isUpper || d.isLower || d.isDigit) = true
      rw [hupper, Bool.true_or, Bool.true_or]
    · exact List.all_eq_true.mp hrest d hd

namespace Naming

/-! ## Words -/

/-- A separator ends the word before it, and the words after it are read by themselves. -/
theorem splitFrom_append_separator {c : Char} (hc : c.isAlphanum = false) (current cs ds : List Char) :
    splitFrom current (cs ++ c :: ds) = splitFrom current cs ++ split ds := by
  induction cs generalizing current with
  | nil => simp [splitFrom, hc, split]
  | cons d rest ih =>
    -- what follows a letter matters only if it is in lower case
    have hlower : c.isLower = false := by
      have hkinds : (c.isUpper || c.isLower || c.isDigit) = false := hc
      simp only [Bool.or_eq_false_iff] at hkinds
      exact hkinds.1.2
    have hstart : ∀ prev, startsWord prev d (rest ++ c :: ds).head? = startsWord prev d rest.head? := by
      intro prev
      cases rest with
      | nil => simp [startsWord, hlower]
      | cons e more => rfl
    rw [List.cons_append]
    unfold splitFrom
    split
    · cases current with
      | nil => exact ih [d]
      | cons prev before =>
        dsimp only
        rw [hstart]
        split
        · rw [ih, List.cons_append]
        · exact ih _
    · rw [ih, List.append_assoc]

theorem split_append_separator {c : Char} (hc : c.isAlphanum = false) (cs ds : List Char) :
    split (cs ++ c :: ds) = split cs ++ split ds := splitFrom_append_separator hc [] cs ds

/-- Words do not depend on which separators are between them. -/
theorem splitFrom_map_separators {f : Char → Char}
    (h : ∀ c, f c = c ∨ c.isAlphanum = false ∧ (f c).isAlphanum = false) (current cs : List Char) :
    splitFrom current (cs.map f) = splitFrom current cs := by
  induction cs generalizing current with
  | nil => rfl
  | cons d rest ih =>
    have hlower : ∀ c, (f c).isLower = c.isLower := by
      intro c
      rcases h c with hsame | ⟨hc, hfc⟩
      · rw [hsame]
      · unfold Char.isAlphanum Char.isAlpha at hc hfc
        simp only [Bool.or_eq_false_iff] at hc hfc
        rw [hc.1.2, hfc.1.2]
    have hstart : ∀ prev, startsWord prev d (rest.map f).head? = startsWord prev d rest.head? := by
      intro prev
      cases rest with
      | nil => rfl
      | cons e more => simp [startsWord, hlower]
    rw [List.map_cons]
    rcases h d with hsame | ⟨hd, hfd⟩
    · rw [hsame]
      unfold splitFrom
      simp only [hstart, ih]
    · unfold splitFrom
      simp only [hd, hfd, Bool.false_eq_true, if_false, ih]

theorem joinWith_append_singleton (sep : Char) {ws : List Word} (h : ws ≠ []) (w : Word) :
    joinWith sep (ws ++ [w]) = joinWith sep ws ++ sep :: w := by
  induction ws with
  | nil => exact absurd rfl h
  | cons v rest ih =>
    cases rest with
    | nil => rfl
    | cons u more =>
      show v ++ sep :: joinWith sep ((u :: more) ++ [w]) = (v ++ sep :: joinWith sep (u :: more)) ++ sep :: w
      rw [ih (List.cons_ne_nil _ _), List.append_assoc, List.cons_append]

/-- Snake case of a text that has words, with one more word after a separator. -/
theorem snakeChars_append {c : Char} (hc : c.isAlphanum = false) {cs ds : List Char}
    (hcs : ∃ c ∈ cs, c.isAlphanum = true) (hds : (split ds).map lower = [ds]) :
    snakeChars (cs ++ c :: ds) = snakeChars cs ++ '_' :: ds := by
  have hwords : (split cs).map lower ≠ [] := by
    rw [ne_eq, List.map_eq_nil_iff, split_eq_nil_iff]
    obtain ⟨c, hc, halnum⟩ := hcs
    intro hnone
    rw [hnone c hc] at halnum
    cases halnum
  unfold snakeChars
  rw [split_append_separator hc, List.map_append, hds]
  exact joinWith_append_singleton '_' hwords ds

/-! ## Modules -/

/-- A `.` separates words anyway. -/
theorem hostModule_eq_toSnake (stem : String) : hostModule stem = toSnake stem := by
  have hdots : ∀ c : Char, (if c = '.' then '_' else c) = c ∨
      c.isAlphanum = false ∧ (if c = '.' then '_' else c).isAlphanum = false := by
    intro c
    by_cases hc : c = '.'
    · rw [if_pos hc, hc]
      exact .inr (by decide)
    · exact .inl (if_neg hc)
  refine toSnake_of_split_eq ?_
  rw [String.toList_ofList]
  exact splitFrom_map_separators hdots [] _

/-- The module of a file that holds a type of that name. -/
theorem hostModule_append {name kind : String} (h : isTypeName name.toList = true)
    (hkind : (split kind.toList).map lower = [kind.toList]) :
    hostModule (name ++ "." ++ kind) = toSnake name ++ "_" ++ kind := by
  have hletter : ∃ c ∈ name.toList, c.isAlphanum = true := by
    cases hcs : name.toList with
    | nil =>
      rw [hcs] at h
      cases h
    | cons c rest =>
      exact ⟨c, List.mem_cons_self, isAlphanum_of_isTypeName h c (hcs ▸ List.mem_cons_self)⟩
  have hstem : (name ++ "." ++ kind).toList = name.toList ++ '.' :: kind.toList := by
    rw [String.append_assoc, String.toList_append, String.toList_append]
    rfl
  refine String.toList_inj.mp ?_
  rw [hostModule_eq_toSnake]
  unfold toSnake
  rw [hstem, String.toList_ofList, snakeChars_append (by decide) hletter hkind, String.append_assoc,
    String.toList_append, String.toList_ofList, String.toList_append]
  rfl

end Naming

end SchemaGen
