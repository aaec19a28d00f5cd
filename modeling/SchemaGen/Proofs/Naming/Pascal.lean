import SchemaGen.Proofs.Naming.Queries

/-!
# Pascal case of identifiers

Pascal case puts the words of a text next to each other, with a `_` between two that would merge. The words
of letters and digits without a separator were told apart by their case; so they are again when all of them
are capitalised, with one exception: a single letter in lower case is told from the next word by its case
alone. The name of a type has no such word, and the name of an attribute may start with one, as `pH` does.

The name of an operation is put together from such words, and Pascal case does no more to it than to the name
of its entity: the `_` in the name of a query are those that its attributes bring.

Results:
1. `isAlphanum_toPascal_iff`, `isAlphanum_toPascal`: when Pascal case of a name has no `_`.
2. `toPascal_queryOperation`, `toPascal_mutation`: Pascal case of the names of operations.
-/

namespace SchemaGen.Naming

variable {p c : Char} {w v : Word} {ws vs : List Word} {before rest cs : List Char} {n entity verb : String}
  {a : List String}

/-! ## Words without a mark between them -/

/-- The first word starts as the text does. -/
theorem head?_of_split (h : Lettered cs) (hsplit : split cs = w :: ws) : w.head? = cs.head? := by
  cases cs with
  | nil => exact h.elim
  | cons c rest =>
    obtain ⟨more, others, hfirst, -⟩ := exists_splitFrom_eq c [] h.2
    rw [split_cons h.isAlphanum, hfirst] at hsplit
    cases hsplit
    rfl

theorem isUpper_of_startsAfter (h : startsAfter w v = true) : ∀ c ∈ v.head?, c.isUpper = true := by
  unfold startsAfter at h
  split at h
  · rintro c ⟨⟩
    exact isUpper_of_startsWord h
  · cases h

theorem any_isLower_capitalize (v : Word) :
    (capitalize v).tail.head?.any Char.isLower = v.tail.head?.any Char.isAlpha := by
  cases v with
  | nil => rfl
  | cons c rest =>
    cases rest with
    | nil => rfl
    | cons d more => exact Char.isLower_toLower_eq_isAlpha d

theorem tail_capitalize_ne_nil_iff : (capitalize w).tail ≠ [] ↔ w.tail ≠ [] := by
  cases w with
  | nil => rfl
  | cons c rest =>
    show lower rest ≠ [] ↔ rest ≠ []
    unfold lower
    rw [ne_eq, List.map_eq_nil_iff]

theorem separates_capitalize_iff (hw : Lettered w) (hv : Lettered v) :
    separates (capitalize w) (capitalize v) = true ↔ w.tail ≠ [] ∨ v.tail.head?.any Char.isAlpha = true := by
  rw [separates_iff (capitalized_capitalize hw) (capitalized_capitalize hv), any_isLower_capitalize,
    tail_capitalize_ne_nil_iff]

/-- A word that follows one which starts in upper case is read by itself when both are capitalised. -/
theorem separates_of_startsAfter (hw : Lettered w) (hv : Lettered v) (h : startsAfter w v = true)
    (hupper : ∀ c ∈ w.head?, c.isUpper = true) : separates (capitalize w) (capitalize v) = true := by
  rw [separates_capitalize_iff hw hv]
  cases w with
  | nil => exact hw.elim
  | cons c rest =>
    cases v with
    | nil => exact hv.elim
    | cons d more =>
      by_cases hrest : rest = []
      · -- after a single letter in upper case a word starts only before a letter in lower case
        subst hrest
        have hc : c.isUpper = true := hupper c rfl
        have hlower : c.isLower = false := Bool.eq_false_iff.mpr (Char.not_isLower_of_isUpper hc)
        have hstart : startsWord c d more.head? = true := (startsAfter_append [] c d more).symm.trans h
        unfold startsWord at hstart
        rw [hlower, isDigit_eq_false hw.1, hc, Bool.false_or, Bool.false_or, Bool.true_and,
          Bool.and_eq_true] at hstart
        cases more with
        | nil => cases hstart.2
        | cons e others => exact .inr (Bool.or_eq_true_iff.mpr (.inr hstart.2))
      · exact .inl hrest

/-- Words that follow one in upper case are put next to each other. -/
theorem compactAfter_of_isChain (hchain : (w :: ws).IsChain fun w v => startsAfter w v = true)
    (hws : ∀ v ∈ w :: ws, Lettered v) (hupper : ∀ c ∈ w.head?, c.isUpper = true) :
    compactAfter (capitalize w) (ws.map capitalize) = (ws.map capitalize).flatten := by
  induction ws generalizing w with
  | nil => rfl
  | cons v more ih =>
    obtain ⟨hw, hmore⟩ := List.forall_mem_cons.mp hws
    obtain ⟨h, hnext⟩ := List.isChain_cons_cons.mp hchain
    rw [List.map_cons, compactAfter_cons, List.flatten_cons, ih hnext hmore (isUpper_of_startsAfter h),
      if_pos (separates_of_startsAfter hw (hmore v List.mem_cons_self) h hupper)]

/-! ## Names in Pascal case -/

/-- The first word of a name is a single letter, and the second one does not go on in letters. Pascal case puts
a `_` between such words. -/
def isParted (n : String) : Bool :=
  match split n.toList with
  | w :: v :: _ => w.tail.isEmpty && !v.tail.head?.any Char.isAlpha
  | _ => false

example : isParted "pH" = true ∧ toPascal "pH" = "P_H" := by decide
example : isParted "eTag" = false ∧ toPascal "eTag" = "ETag" := by decide

theorem isAlphanum_of_lettered (h : Lettered cs) : ∀ c ∈ cs, c.isAlphanum = true := by
  cases cs with
  | nil => exact h.elim
  | cons c rest => exact List.forall_mem_cons.mpr ⟨h.isAlphanum, h.2⟩

theorem isParted_eq_false_iff (hw : Lettered w) (hv : Lettered v) (h : split n.toList = w :: v :: ws) :
    isParted n = false ↔ separates (capitalize w) (capitalize v) = true := by
  rw [separates_capitalize_iff hw hv]
  unfold isParted
  rw [h]
  show (w.tail.isEmpty && !v.tail.head?.any Char.isAlpha) = false ↔ _
  rw [Bool.and_eq_false_iff, Bool.not_eq_false', List.isEmpty_eq_false_iff]

/-- Pascal case of a name has letters and digits only, unless its first two words are parted. -/
theorem isAlphanum_toPascal_iff (h : Lettered n.toList) :
    (∀ c ∈ (toPascal n).toList, c.isAlphanum = true) ↔ isParted n = false := by
  have hchain := isChain_split (isAlphanum_of_lettered h)
  have hwords := lettered_split h
  have hcapital : ∀ c ∈ ((split n.toList).map capitalize).flatten, c.isAlphanum = true :=
    List.forall_mem_flatten.mpr <| List.forall_mem_map.mpr fun w hw =>
      isAlphanum_capitalize (isAlphanum_of_lettered (hwords w hw))
  unfold toPascal pascalChars
  rw [String.toList_ofList]
  match hsplit : split n.toList with
  | [] => exact absurd hsplit (split_ne_nil_of_lettered h)
  | [w] =>
    have hwhole : isParted n = false := by
      unfold isParted
      rw [hsplit]
    rw [hsplit] at hcapital
    exact ⟨fun _ => hwhole, fun _ => hcapital⟩
  | w :: v :: more =>
    rw [hsplit] at hchain hwords hcapital
    obtain ⟨hstart, hnext⟩ := List.isChain_cons_cons.mp hchain
    obtain ⟨hw, hmore⟩ := List.forall_mem_cons.mp hwords
    have hrest := compactAfter_of_isChain hnext hmore (isUpper_of_startsAfter hstart)
    rw [isParted_eq_false_iff hw (hmore v List.mem_cons_self) hsplit]
    show (∀ c ∈ capitalize w ++ compactAfter (capitalize w) (capitalize v :: more.map capitalize), _) ↔ _
    rw [compactAfter_cons, hrest]
    split
    · next hseparates => exact ⟨fun _ => hseparates, fun _ => hcapital⟩
    · next hseparates =>
      refine ⟨fun hall => ?_, fun htrue => absurd htrue hseparates⟩
      have hmark := hall '_' (by simp)
      exact absurd hmark (by decide)

theorem isUpper_of_isTypeName (h : isTypeName cs = true) : ∀ c ∈ cs.head?, c.isUpper = true := by
  cases cs with
  | nil => cases h
  | cons c rest =>
    rintro d ⟨⟩
    exact (Bool.and_eq_true_iff.mp h).1

/-- The words of a type are not parted, as the first one starts in upper case, too. -/
theorem isParted_of_isTypeName (h : isTypeName n.toList = true) : isParted n = false := by
  have hlettered := lettered_of_isTypeName h
  have hchain := isChain_split (isAlphanum_of_lettered hlettered)
  have hwords := lettered_split hlettered
  match hsplit : split n.toList with
  | [] => exact absurd hsplit (split_ne_nil_of_lettered hlettered)
  | [w] =>
    unfold isParted
    rw [hsplit]
  | w :: v :: more =>
    rw [hsplit] at hchain hwords
    obtain ⟨hstart, -⟩ := List.isChain_cons_cons.mp hchain
    obtain ⟨hw, hmore⟩ := List.forall_mem_cons.mp hwords
    have hupper : ∀ d ∈ w.head?, d.isUpper = true := by
      rw [head?_of_split hlettered hsplit]
      exact isUpper_of_isTypeName h
    rw [isParted_eq_false_iff hw (hmore v List.mem_cons_self) hsplit]
    exact separates_of_startsAfter hw (hmore v List.mem_cons_self) hstart hupper

theorem isAlphanum_toPascal (h : isTypeName n.toList = true) :
    ∀ c ∈ (toPascal n).toList, c.isAlphanum = true :=
  (isAlphanum_toPascal_iff (lettered_of_isTypeName h)).mpr (isParted_of_isTypeName h)

theorem isAlphanum_byAttributes_iff (h : ∀ n ∈ a, isCamelName n.toList = true) :
    (∀ c ∈ (byAttributes a).toList, c.isAlphanum = true) ↔ ∀ n ∈ a, isParted n = false := by
  have hone : ∀ n ∈ a, (∀ c ∈ (toPascal n).toList, c.isAlphanum = true) ↔ isParted n = false :=
    fun n hn => isAlphanum_toPascal_iff (lettered_of_isCamelName (h n hn))
  clear h
  induction a with
  | nil => exact ⟨fun _ n hn => absurd hn List.not_mem_nil, fun _ c hc => absurd hc List.not_mem_nil⟩
  | cons n rest ih =>
    obtain ⟨hn, hrest⟩ := List.forall_mem_cons.mp hone
    cases rest with
    | nil => rw [byAttributes_singleton, hn, List.forall_mem_singleton]
    | cons m more =>
      have hand : ∀ c ∈ "And".toList, c.isAlphanum = true := by simp
      rw [byAttributes_cons_cons, String.toList_append, String.toList_append, List.forall_mem_append,
        List.forall_mem_append, hn, List.forall_mem_cons]
      exact ⟨fun hall => ⟨hall.1.1, (ih hrest).mp hall.2⟩, fun hall => ⟨⟨hall.1, hand⟩, (ih hrest).mpr hall.2⟩⟩

/-! ## Names of operations in Pascal case -/

theorem capitalize_capitalize (w : Word) : capitalize (capitalize w) = capitalize w := by
  rw [← capitalize_lower (capitalize w), lower_capitalize, capitalize_lower]

/-- A word in lower case is read by itself before a text that starts in upper case. -/
theorem split_word_append (hw : Unbroken w) (hp : w.getLast? = some p) (hlower : p.isLower = true)
    (hcs : ∀ c ∈ cs.head?, c.isUpper = true) : split (w ++ cs) = w :: split cs := by
  cases cs with
  | nil => rw [List.append_nil, hw.split_eq, show split [] = [] from rfl]
  | cons c rest =>
    have hstart : startsWord p c rest.head? = true := by
      unfold startsWord
      rw [hlower, hcs c rfl, Bool.true_or, Bool.true_or, Bool.true_and]
    rw [split_append hw.isAlphanum hp hstart, hw.split_eq, List.singleton_append]

theorem isUpper_compact (hws : ∀ w ∈ ws, Capitalized w) : ∀ c ∈ (compact ws).head?, c.isUpper = true := by
  cases ws with
  | nil => exact fun c hc => absurd hc (Option.not_mem_none c)
  | cons w more =>
    cases w with
    | nil => exact (hws [] List.mem_cons_self).elim
    | cons d rest =>
      rintro c ⟨⟩
      exact (hws _ List.mem_cons_self).1

/-- The words of the name of a mutation. -/
theorem split_mutation (hv : verb ∈ verbs) (h : isTypeName entity.toList = true) :
    split (mutation verb entity).toList = verb.toList :: split entity.toList := by
  have hverb : Unbroken verb.toList ∧ ∃ p, verb.toList.getLast? = some p ∧ p.isLower = true := by
    simp only [verbs, List.mem_cons, List.not_mem_nil, or_false] at hv
    rcases hv with rfl | rfl | rfl <;> exact ⟨by simp [Unbroken], 'e', rfl, rfl⟩
  obtain ⟨hword, p, hp, hlower⟩ := hverb
  unfold mutation
  rw [toCamel_verb hv, String.toList_append]
  exact split_word_append hword hp hlower (isUpper_of_isTypeName h)

/-- The words of the name of a query. -/
theorem split_queryOperation (h : isTypeName entity.toList = true) (ha : ∀ n ∈ a, isCamelName n.toList = true) :
    split (queryOperation entity a).toList =
      "query".toList :: (split entity.toList ++ "By".toList :: (queryWords a).map capitalize) := by
  have hwords : ∀ w ∈ (queryWords a).map capitalize, Capitalized w :=
    List.forall_mem_map.mpr (capitalized_queryWords ha)
  have hby : split ('B' :: 'y' :: (byAttributes a).toList) = "By".toList :: (queryWords a).map capitalize := by
    have hword : Unbroken "By".toList := by simp [Unbroken]
    have hread := split_word_append hword rfl rfl (isUpper_compact hwords)
    rw [split_compact fun w hw => (hwords w hw).unbroken.split_eq] at hread
    rw [byAttributes_eq_compact ha, String.toList_ofList]
    exact hread
  have hentity : split (entity.toList ++ 'B' :: 'y' :: (byAttributes a).toList) =
      split entity.toList ++ split ('B' :: 'y' :: (byAttributes a).toList) := by
    have halnum := isAlphanum_of_isTypeName h
    rcases List.eq_nil_or_concat' entity.toList with hnil | ⟨init, p, hlast⟩
    · rw [hnil] at h
      cases h
    · have hp : entity.toList.getLast? = some p := by rw [hlast, List.getLast?_concat]
      refine split_append halnum hp ?_
      have halnum := halnum p (List.mem_of_getLast? hp)
      unfold startsWord
      unfold Char.isAlphanum Char.isAlpha at halnum
      simp only [Bool.or_eq_true] at halnum
      rcases halnum with (hp | hp) | hp <;> simp [hp]
  have hquery : (queryOperation entity a).toList =
      "query".toList ++ (entity.toList ++ 'B' :: 'y' :: (byAttributes a).toList) := by
    unfold queryOperation
    simp only [String.toList_append, List.append_assoc]
    rfl
  have hhead : ∀ c ∈ (entity.toList ++ 'B' :: 'y' :: (byAttributes a).toList).head?, c.isUpper = true :=
    head?_append_of_head? (isUpper_of_isTypeName h) (by simp)
  have hword : Unbroken "query".toList := by simp [Unbroken]
  rw [hquery, split_word_append hword rfl rfl hhead, hentity, hby]

theorem capitalized_split (h : isTypeName entity.toList = true) :
    ∀ w ∈ (split entity.toList).map capitalize, Capitalized w :=
  List.forall_mem_map.mpr fun w hw => capitalized_capitalize (lettered_split (lettered_of_isTypeName h) w hw)

theorem toPascal_mutation (hv : verb ∈ verbs) (h : isTypeName entity.toList = true) :
    toPascal (mutation verb entity) = toPascal verb ++ toPascal entity := by
  have hverb : Capitalized (capitalize verb.toList) ∧ (capitalize verb.toList).tail ≠ [] ∧
      toPascal verb = String.ofList (capitalize verb.toList) := by
    simp only [verbs, List.mem_cons, List.not_mem_nil, or_false] at hv
    rcases hv with rfl | rfl | rfl <;> exact ⟨by simp [Capitalized, capitalize, lower], by decide, by decide⟩
  obtain ⟨hcapital, hlong, hword⟩ := hverb
  rw [hword]
  unfold toPascal pascalChars
  rw [split_mutation hv h, List.map_cons, compact_cons_of_long hcapital hlong (capitalized_split h),
    String.ofList_append]

theorem toPascal_queryOperation (h : isTypeName entity.toList = true)
    (ha : ∀ n ∈ a, isCamelName n.toList = true) :
    toPascal (queryOperation entity a) = "Query" ++ toPascal entity ++ "By" ++ byAttributes a := by
  have hwords : ∀ w ∈ (queryWords a).map capitalize, Capitalized w :=
    List.forall_mem_map.mpr (capitalized_queryWords ha)
  have hentity := capitalized_split h
  have hquery : Capitalized "Query".toList := by simp [Capitalized]
  have hby : Capitalized "By".toList := by simp [Capitalized]
  have hsame : ((queryWords a).map capitalize).map capitalize = (queryWords a).map capitalize := by
    rw [List.map_map, show capitalize ∘ capitalize = capitalize from funext capitalize_capitalize]
  have hall : ∀ w ∈ (split entity.toList).map capitalize ++ "By".toList :: (queryWords a).map capitalize,
      Capitalized w :=
    List.forall_mem_append.mpr ⟨hentity, List.forall_mem_cons.mpr ⟨hby, hwords⟩⟩
  have hchars : pascalChars (queryOperation entity a).toList = "Query".toList ++ (pascalChars entity.toList ++
      ("By".toList ++ compact ((queryWords a).map capitalize))) := by
    unfold pascalChars
    rw [split_queryOperation h ha, List.map_cons, List.map_append, List.map_cons, hsame,
      show capitalize "query".toList = "Query".toList by decide,
      show capitalize "By".toList = "By".toList by decide,
      compact_cons_of_long hquery (by decide) hall, compact_append hentity hby rfl,
      compact_cons_of_long hby (by decide) hwords]
  unfold toPascal
  rw [hchars, byAttributes_eq_compact ha]
  simp only [String.ofList_append, String.ofList_toList, String.append_assoc]

end SchemaGen.Naming
