import SchemaGen.Document.Rules
import SchemaGen.Proofs.Naming.Derived
import SchemaGen.Proofs.Naming.Words

/-!
# The names of queries

A query is named for the attributes that it requires, each in Pascal case, with `And` between neighbours.
Capitalised words that are put next to each other are read as themselves again, `And` among them. So the
name of a query tells the words of its attributes, and neither their case nor where one attribute ends and
the next one starts: `userId` and `userID` have the same words, and so do `dayAndLine` alone and `day` with
`line`.

Results:
1. `byAttributes_eq_compact`: the attributes of a name as capitalised words.
2. `byAttributes_eq_iff`: which lists of attributes share a name.
-/

namespace SchemaGen.Naming

variable {prev w : Word} {ws vs : List Word}

/-! ## Words by themselves -/

/-- A word that starts with a letter. -/
def Lettered : Word → Prop
  | [] => False
  | c :: rest => c.isAlpha = true ∧ ∀ d ∈ rest, d.isAlphanum = true

/-- A letter in upper case, and then letters in lower case and digits. -/
def Capitalized : Word → Prop
  | [] => False
  | c :: rest => c.isUpper = true ∧ ∀ d ∈ rest, d.isAlphanum = true ∧ d.isUpper = false

theorem Capitalized.unbroken (h : Capitalized w) : Unbroken w := by
  cases w with
  | nil => exact h.elim
  | cons c rest => exact ⟨by simp [Char.isAlphanum, Char.isAlpha, h.1], h.2⟩

theorem capitalized_capitalize (h : Lettered w) : Capitalized (capitalize w) := by
  cases w with
  | nil => exact h
  | cons c rest =>
    have halnum : c.isAlphanum = true := by simp [Char.isAlphanum, h.1]
    exact ⟨(Char.isUpper_toUpper_eq_isAlpha c).trans h.1, (unbroken_cons_lower halnum h.2).2⟩

/-- The words of letters and digits start with letters, when the first of them does. -/
theorem lettered_splitFrom {current cs : List Char} (h : Lettered current.reverse)
    (hcs : ∀ c ∈ cs, c.isAlphanum = true) : ∀ w ∈ splitFrom current cs, Lettered w := by
  induction cs generalizing current with
  | nil =>
    cases current with
    | nil => exact h.elim
    | cons p before => exact List.forall_mem_singleton.mpr h
  | cons c rest ih =>
    cases current with
    | nil => exact h.elim
    | cons p before =>
      have hc : c.isAlphanum = true := hcs c List.mem_cons_self
      have hrest : ∀ d ∈ rest, d.isAlphanum = true := fun d hd => hcs d (List.mem_cons_of_mem _ hd)
      unfold splitFrom
      rw [if_pos hc]
      dsimp only
      split
      · next hstart =>
        -- a word that starts inside starts with a letter in upper case
        unfold startsWord at hstart
        have hupper := (Bool.and_eq_true_iff.mp hstart).1
        refine List.forall_mem_cons.mpr ⟨h, ih ⟨?_, by simp⟩ hrest⟩
        unfold Char.isAlpha
        rw [hupper, Bool.true_or]
      · refine ih ?_ hrest
        rw [List.reverse_cons]
        generalize (p :: before).reverse = word at h
        cases word with
        | nil => exact h.elim
        | cons d more =>
          refine ⟨h.1, List.forall_mem_append.mpr ⟨h.2, List.forall_mem_singleton.mpr hc⟩⟩

theorem Lettered.isAlphanum {c : Char} {cs : List Char} (h : Lettered (c :: cs)) : c.isAlphanum = true :=
  Bool.or_eq_true_iff.mpr (.inl h.1)

theorem lettered_split {cs : List Char} (h : Lettered cs) : ∀ w ∈ split cs, Lettered w := by
  cases cs with
  | nil => exact h.elim
  | cons c rest =>
    have hfirst : Lettered [c].reverse := ⟨h.1, by simp⟩
    rw [split_cons h.isAlphanum]
    exact lettered_splitFrom hfirst h.2

theorem split_ne_nil_of_lettered {cs : List Char} (h : Lettered cs) : split cs ≠ [] := by
  cases cs with
  | nil => exact h.elim
  | cons c rest =>
    rw [split_cons h.isAlphanum]
    exact splitFrom_ne_nil _ _ _

/-- Names of types are letters and digits that start with a letter. -/
theorem lettered_of_isTypeName {cs : List Char} (h : isTypeName cs = true) : Lettered cs := by
  cases cs with
  | nil => cases h
  | cons c rest =>
    obtain ⟨hupper, hrest⟩ := Bool.and_eq_true_iff.mp h
    exact ⟨Bool.or_eq_true_iff.mpr (.inl hupper), List.all_eq_true.mp hrest⟩

/-- So are names of attributes. -/
theorem lettered_of_isCamelName {cs : List Char} (h : isCamelName cs = true) : Lettered cs := by
  cases cs with
  | nil => cases h
  | cons c rest =>
    obtain ⟨hlower, hrest⟩ := Bool.and_eq_true_iff.mp h
    exact ⟨Bool.or_eq_true_iff.mpr (.inr hlower), List.all_eq_true.mp hrest⟩

/-! ## Capitalised words next to each other -/

theorem lower_or_digit {c : Char} (h : c.isAlphanum = true) (hupper : c.isUpper = false) :
    (c.isLower || c.isDigit) = true := by
  unfold Char.isAlphanum Char.isAlpha at h
  rwa [hupper, Bool.false_or] at h

/-- Neighbours are read as themselves, but for a single letter before a word that does not go on in letters. -/
theorem separates_iff (hw : Capitalized w) (hv : Capitalized v) :
    separates w v = true ↔ w.tail ≠ [] ∨ v.tail.head?.any Char.isLower = true := by
  rw [separates_eq_startsAfter hw.unbroken.split_eq hv.unbroken.split_eq]
  cases w with
  | nil => exact hw.elim
  | cons c rest =>
    cases v with
    | nil => exact hv.elim
    | cons d more =>
      rcases List.eq_nil_or_concat' rest with rfl | ⟨init, p, rfl⟩
      · have hlower : c.isLower = false := Bool.eq_false_iff.mpr (Char.not_isLower_of_isUpper hw.1)
        have hdigit : c.isDigit = false := isDigit_eq_false (Bool.or_eq_true_iff.mpr (.inl hw.1))
        show startsWord c d more.head? = true ↔ _
        unfold startsWord
        simp [hv.1, hw.1, hlower, hdigit]
      · obtain ⟨halnum, hupper⟩ := hw.2 p (List.mem_append_right _ List.mem_cons_self)
        show startsAfter (c :: init ++ [p]) (d :: more) = true ↔ _
        rw [startsAfter_append]
        unfold startsWord
        rw [hv.1, lower_or_digit halnum hupper]
        simp

theorem compactAfter_cons (prev w : Word) (ws : List Word) : compactAfter prev (w :: ws) =
    (if separates prev w then w else '_' :: w) ++ compactAfter w ws := rfl

theorem compactAfter_append (prev : Word) (ws vs : List Word) :
    compactAfter prev (ws ++ vs) = compactAfter prev ws ++ compactAfter (ws.getLastD prev) vs := by
  induction ws generalizing prev with
  | nil => rfl
  | cons w rest ih =>
    rw [List.cons_append, List.getLastD_cons, compactAfter_cons, ih, compactAfter_cons, List.append_assoc]

/-- After a word of several characters any word is put as it is. -/
theorem compact_cons_of_long (hw : Capitalized w) (hlong : w.tail ≠ []) (hws : ∀ v ∈ ws, Capitalized v) :
    compact (w :: ws) = w ++ compact ws := by
  cases ws with
  | nil => rfl
  | cons v rest =>
    show w ++ compactAfter w (v :: rest) = w ++ (v ++ compactAfter v rest)
    rw [compactAfter_cons, if_pos ((separates_iff hw (hws v List.mem_cons_self)).mpr (.inl hlong))]

/-- A word that goes on in letters is put as it is after any word. -/
theorem compact_append (hws : ∀ w ∈ ws, Capitalized w) (hv : Capitalized v)
    (hlower : v.tail.head?.any Char.isLower = true) :
    compact (ws ++ v :: vs) = compact ws ++ compact (v :: vs) := by
  cases ws with
  | nil => rfl
  | cons w rest =>
    have hlast : Capitalized (rest.getLastD w) := hws _ List.getLastD_mem_cons
    show w ++ compactAfter w (rest ++ v :: vs) = w ++ compactAfter w rest ++ (v ++ compactAfter v vs)
    rw [compactAfter_append, compactAfter_cons, if_pos ((separates_iff hlast hv).mpr (.inr hlower)),
      List.append_assoc]

/-! ## The attributes of a query -/

/-- The words of an attribute in lower case. -/
def attributeWords (n : String) : List Word := (split n.toList).map lower

/-- The words of attributes in lower case, with `and` between neighbours. -/
def queryWords (attributes : List String) : List Word :=
  ["and".toList].intercalate (attributes.map attributeWords)

/-- The word between the attributes of a name. -/
def conjunction : Word := ['A', 'n', 'd']

theorem capitalized_conjunction : Capitalized conjunction := by
  have hlower : ∀ d ∈ ['n', 'd'], d.isAlphanum = true ∧ d.isUpper = false := by simp
  exact ⟨rfl, hlower⟩

/-- Words on both sides of the conjunction are put together to themselves. -/
theorem compact_conjunction (hws : ∀ w ∈ ws, Capitalized w) (hvs : ∀ v ∈ vs, Capitalized v) :
    compact (ws ++ conjunction :: vs) = compact ws ++ conjunction ++ compact vs := by
  have hlong : conjunction.tail ≠ [] := List.cons_ne_nil _ _
  rw [compact_append hws capitalized_conjunction rfl, compact_cons_of_long capitalized_conjunction hlong hvs,
    List.append_assoc]

variable {a b : List String}

theorem queryWords_cons_cons (n m : String) (rest : List String) : queryWords (n :: m :: rest) =
    attributeWords n ++ "and".toList :: queryWords (m :: rest) := by
  unfold queryWords
  rw [List.map_cons, List.map_cons, List.intercalate_cons_cons, List.append_assoc]
  rfl

theorem queryWords_singleton (n : String) : queryWords [n] = attributeWords n := by
  simp [queryWords]

/-- The words of attributes, one case for each word. -/
theorem forall_mem_queryWords {P : Word → Prop} (hand : P "and".toList)
    (h : ∀ n ∈ a, ∀ w ∈ attributeWords n, P w) : ∀ w ∈ queryWords a, P w := by
  induction a with
  | nil => simp [queryWords]
  | cons n rest ih =>
    cases rest with
    | nil =>
      rw [queryWords_singleton]
      exact h n List.mem_cons_self
    | cons m more =>
      rw [queryWords_cons_cons]
      refine List.forall_mem_append.mpr ⟨h n List.mem_cons_self, List.forall_mem_cons.mpr ⟨hand, ?_⟩⟩
      exact ih fun n hn => h n (List.mem_cons_of_mem _ hn)

theorem lower_queryWords (a : List String) : ∀ w ∈ queryWords a, lower w = w := by
  refine forall_mem_queryWords (by decide) fun n _ w hw => ?_
  obtain ⟨v, -, rfl⟩ := List.mem_map.mp hw
  exact lower_lower v

theorem capitalized_attributeWords {n : String} (h : isCamelName n.toList = true) :
    ∀ w ∈ attributeWords n, Capitalized (capitalize w) := by
  intro w hw
  obtain ⟨v, hv, rfl⟩ := List.mem_map.mp hw
  rw [capitalize_lower]
  exact capitalized_capitalize (lettered_split (lettered_of_isCamelName h) v hv)

theorem capitalized_queryWords (h : ∀ n ∈ a, isCamelName n.toList = true) :
    ∀ w ∈ queryWords a, Capitalized (capitalize w) :=
  forall_mem_queryWords capitalized_conjunction fun n hn => capitalized_attributeWords (h n hn)

theorem toPascal_eq_compact (n : String) :
    toPascal n = String.ofList (compact ((attributeWords n).map capitalize)) := by
  unfold toPascal pascalChars attributeWords
  rw [List.map_map, show capitalize ∘ lower = capitalize from funext capitalize_lower]

theorem byAttributes_singleton (n : String) : byAttributes [n] = toPascal n := by simp [byAttributes]

theorem byAttributes_cons_cons (n m : String) (rest : List String) :
    byAttributes (n :: m :: rest) = toPascal n ++ "And" ++ byAttributes (m :: rest) := by
  unfold byAttributes
  rw [List.map_cons, List.map_cons, String.intercalate_cons_cons]

/-- What a query is named for, as capitalised words put together. -/
theorem byAttributes_eq_compact (h : ∀ n ∈ a, isCamelName n.toList = true) :
    byAttributes a = String.ofList (compact ((queryWords a).map capitalize)) := by
  induction a with
  | nil => rfl
  | cons n rest ih =>
    cases rest with
    | nil =>
      rw [queryWords_singleton, ← toPascal_eq_compact, byAttributes_singleton]
    | cons m more =>
      have hrest : ∀ n ∈ m :: more, isCamelName n.toList = true := fun n hn => h n (List.mem_cons_of_mem _ hn)
      have hwords : ∀ w ∈ (attributeWords n).map capitalize, Capitalized w :=
        List.forall_mem_map.mpr (capitalized_attributeWords (h n List.mem_cons_self))
      have hmore : ∀ w ∈ (queryWords (m :: more)).map capitalize, Capitalized w :=
        List.forall_mem_map.mpr (capitalized_queryWords hrest)
      rw [byAttributes_cons_cons, ih hrest, toPascal_eq_compact, queryWords_cons_cons, List.map_append, List.map_cons,
        show capitalize "and".toList = conjunction by decide, compact_conjunction hwords hmore,
        String.ofList_append, String.ofList_append]
      rfl

/-- The names of queries tell the words of their attributes, and nothing else. -/
theorem byAttributes_eq_iff (ha : ∀ n ∈ a, isCamelName n.toList = true)
    (hb : ∀ n ∈ b, isCamelName n.toList = true) :
    byAttributes a = byAttributes b ↔ queryWords a = queryWords b := by
  have hread : ∀ {a}, (∀ n ∈ a, isCamelName n.toList = true) →
      (split (byAttributes a).toList).map lower = queryWords a := by
    intro a h
    have hlower : ∀ w ∈ queryWords a, (lower ∘ capitalize) w = id w := fun w hw =>
      (lower_capitalize w).trans (lower_queryWords a w hw)
    rw [byAttributes_eq_compact h, String.toList_ofList,
      split_compact (List.forall_mem_map.mpr fun w hw => (capitalized_queryWords h w hw).unbroken.split_eq),
      List.map_map, List.map_congr_left hlower, List.map_id]
  constructor
  · intro he
    rw [← hread ha, he, hread hb]
  · intro he
    rw [byAttributes_eq_compact ha, byAttributes_eq_compact hb, he]

example : queryWords ["dayAndLine"] = queryWords ["day", "line"] := by decide

end SchemaGen.Naming
