import Mathlib.Data.String.Basic
import SchemaGen.Text.Blank
import SchemaGen.Text.Lines

/-!
# Generated text read back

Generated text is put together from lines. If none of these has a line end within, they are the lines that a
reader finds in the text. A line is then read by what it starts with: a fixed text, and a field that ends
before a certain character.

Results:
1. `lines_unlines`: the lines of a text that was put together from lines.
2. `newline_not_mem_lines`, `isLine_trimEnd`: what the lines of a text are like.
3. `field?_append`, `field?_eq_none`: fields of lines.
4. `block_append`: the lines of a block.
-/

namespace SchemaGen.Text

variable {l l' start : String} {ls : List String} {cs starts : List Char}

/-! ## Lines -/

/-- The text is one line: there is no line end within it, and no carriage return at its end that would belong
to one. -/
def IsLine (l : String) : Prop := '\n' ∉ l.toList ∧ l.toList.getLast? ≠ some '\r'

instance (l : String) : Decidable (IsLine l) :=
  inferInstanceAs (Decidable ('\n' ∉ l.toList ∧ l.toList.getLast? ≠ some '\r'))

/-- A text that is written out is judged by its characters. -/
theorem IsLine.of_chars (h : (cs.all (· != '\n') && cs.getLast? != some '\r') = true) :
    IsLine (String.ofList cs) := by
  obtain ⟨hall, hlast⟩ := Bool.and_eq_true_iff.mp h
  unfold IsLine
  rw [String.toList_ofList]
  refine ⟨fun hm => ?_, bne_iff_ne.mp hlast⟩
  exact absurd rfl (bne_iff_ne.mp (List.all_eq_true.mp hall _ hm))

/-- A text without a line end goes on as a line. -/
theorem isLine_append (h : '\n' ∉ l.toList) (h' : IsLine l') (hne : l' ≠ "") : IsLine (l ++ l') := by
  unfold IsLine
  rw [String.toList_append, List.mem_append, not_or, List.getLast?_append_of_ne_nil _ ?_]
  · exact ⟨⟨h, h'.1⟩, h'.2⟩
  · exact fun hnil => hne (String.toList_eq_nil_iff.mp hnil)

theorem IsLine.append (h : IsLine l) (h' : IsLine l') : IsLine (l ++ l') := by
  by_cases hne : l' = ""
  · rw [hne, String.append_empty]
    exact h
  · exact isLine_append h.1 h' hne

theorem eq_of_mem_spaces {c : Char} {n : Nat} (h : c ∈ (spaces n).toList) : c = ' ' := by
  unfold spaces at h
  rw [String.toList_ofList] at h
  exact List.eq_of_mem_replicate h

theorem not_mem_spaces {c : Char} (h : c ≠ ' ') (n : Nat) : c ∉ (spaces n).toList :=
  fun hc => h (eq_of_mem_spaces hc)

theorem isLine_spaces (n : Nat) : IsLine (spaces n) :=
  ⟨not_mem_spaces (by decide) n, fun hlast => not_mem_spaces (by decide) n (List.mem_of_getLast? hlast)⟩

theorem dropReturn_eq (h : cs.getLast? ≠ some '\r') : dropReturn cs = cs := by
  induction cs using dropReturn.induct with
  | case1 => rfl
  | case2 => exact absurd rfl h
  | case3 c rest hne ih =>
    rw [dropReturn.eq_3 _ _ hne]
    cases rest with
    | nil => rfl
    | cons d more =>
      rw [List.getLast?_cons_cons] at h
      rw [ih h]

theorem toList_unlines (ls : List String) :
    (unlines ls).toList = ls.flatMap fun l => l.toList ++ ['\n'] := by
  unfold unlines
  rw [String.toList_join, List.flatMap_map]
  refine List.flatMap_congr fun l _ => ?_
  rw [String.toList_append]
  rfl

/-- The lines of a text that starts with lines that were put together. -/
theorem lines_unlines_append (h : ∀ l ∈ ls, IsLine l) (s : String) :
    lines (unlines ls ++ s) = ls ++ lines s := by
  unfold lines
  rw [String.toList_append, toList_unlines]
  induction ls with
  | nil => rfl
  | cons l rest ih =>
    obtain ⟨hl, hrest⟩ := List.forall_mem_cons.mp h
    rw [List.flatMap_cons, List.append_assoc, List.append_assoc, List.singleton_append,
      lines_append_newline _ _ hl.1, dropReturn_eq hl.2, List.map_cons, String.ofList_toList, ih hrest,
      List.cons_append]

/-- The lines of a text that was put together from lines. -/
theorem lines_unlines (h : ∀ l ∈ ls, IsLine l) : lines (unlines ls) = ls := by
  have happend := lines_unlines_append h ""
  rw [String.append_empty] at happend
  rw [happend, show lines "" = [] from rfl, List.append_nil]

/-- Dropping the return at the end of a line drops nothing else. -/
theorem mem_of_mem_dropReturn {c : Char} {cs : List Char} (h : c ∈ dropReturn cs) : c ∈ cs := by
  induction cs using dropReturn.induct with
  | case1 => exact h
  | case2 => exact absurd h List.not_mem_nil
  | case3 d rest hne ih =>
    rw [dropReturn.eq_3 _ _ hne] at h
    rcases List.mem_cons.mp h with rfl | h
    · exact List.mem_cons_self
    · exact List.mem_cons_of_mem _ (ih h)

theorem newline_not_mem_linesFrom {current cs : List Char} (hcurrent : '\n' ∉ current) :
    ∀ line ∈ linesFrom current cs, '\n' ∉ line := by
  induction cs generalizing current with
  | nil =>
    intro line hline
    unfold linesFrom at hline
    split at hline
    · cases hline
    · rw [List.mem_singleton.mp hline, List.mem_reverse]
      exact hcurrent
  | cons c rest ih =>
    intro line hline
    unfold linesFrom at hline
    split at hline
    · rcases List.mem_cons.mp hline with rfl | hline
      · exact fun hmem => hcurrent (List.mem_reverse.mp (mem_of_mem_dropReturn hmem))
      · exact ih List.not_mem_nil line hline
    · next hc => exact ih (by rw [List.mem_cons, not_or]; exact ⟨Ne.symm hc, hcurrent⟩) line hline

/-- No line of a text has a line end within. -/
theorem newline_not_mem_lines {s : String} (h : l ∈ lines s) : '\n' ∉ l.toList := by
  obtain ⟨line, hline, rfl⟩ := List.mem_map.mp h
  rw [String.toList_ofList]
  exact newline_not_mem_linesFrom List.not_mem_nil line hline

/-- The end of a trimmed text is not blank. -/
theorem getLast?_trimRight (cs : List Char) : ∀ c ∈ (trimRight cs).getLast?, isBlank c = false := by
  intro c hc
  unfold trimRight at hc
  rw [List.getLast?_reverse] at hc
  have hhead := List.head?_dropWhile_not isBlank cs.reverse
  rw [hc] at hhead
  exact hhead

theorem trimRight_subset (cs : List Char) : trimRight cs ⊆ cs := by
  intro c hc
  unfold trimRight at hc
  exact List.mem_reverse.mp ((List.dropWhile_sublist _).subset (List.mem_reverse.mp hc))

theorem isLine_trimEnd (h : '\n' ∉ l.toList) : IsLine (trimEnd l) := by
  unfold IsLine trimEnd
  rw [String.toList_ofList]
  refine ⟨fun hm => h (trimRight_subset _ hm), fun hlast => ?_⟩
  exact absurd (getLast?_trimRight _ _ hlast) (by decide)

/-! ## How lines start -/

/-- A line that starts with one of the characters, unless it is empty. -/
structure IsLineFrom (starts : List Char) (l : String) : Prop where
  line : IsLine l
  start : ∀ c ∈ l.toList.head?, c ∈ starts

instance (starts : List Char) (l : String) : Decidable (IsLineFrom starts l) :=
  decidable_of_iff (IsLine l ∧ (l.toList.head?.all fun c => starts.contains c) = true) <| by
    have hall : (l.toList.head?.all fun c => starts.contains c) = true ↔ ∀ c ∈ l.toList.head?, c ∈ starts := by
      cases l.toList.head? <;> simp
    exact ⟨fun h => ⟨h.1, hall.mp h.2⟩, fun h => ⟨h.line, hall.mpr h.start⟩⟩

/-- A text that is written out is judged by its characters. -/
theorem IsLineFrom.of_chars (h : (cs.all (· != '\n') && cs.getLast? != some '\r') = true)
    (hstart : cs.head?.all starts.contains = true) : IsLineFrom starts (String.ofList cs) := by
  refine ⟨.of_chars h, fun c hc => ?_⟩
  rw [String.toList_ofList] at hc
  rw [hc] at hstart
  exact List.contains_iff_mem.mp hstart

theorem head?_append (hne : l ≠ "") : (l ++ l').toList.head? = l.toList.head? := by
  rw [String.toList_append]
  exact List.head?_append_of_ne_nil _ fun hnil => hne (String.toList_eq_nil_iff.mp hnil)

theorem IsLineFrom.append (h : IsLineFrom starts l) (h' : IsLine l') (hne : l ≠ "") :
    IsLineFrom starts (l ++ l') := by
  refine ⟨h.line.append h', ?_⟩
  rw [head?_append hne]
  exact h.start

theorem IsLineFrom.mono {starts' : List Char} (h : IsLineFrom starts l) (hs : starts ⊆ starts') :
    IsLineFrom starts' l := ⟨h.line, fun c hc => hs (h.start c hc)⟩

/-! ## Fields of lines -/

/-- What follows the start of characters, if they start so. -/
def after? (start : String) (cs : List Char) : Option (List Char) :=
  if start.toList.isPrefixOf cs then some (cs.drop start.toList.length) else none

/-- The field that follows a start and ends before a character, and the characters from there on. -/
def field? (start : String) (stop : Char) (cs : List Char) : Option (String × List Char) :=
  (after? start cs).map fun rest =>
    (String.ofList (rest.takeWhile (· != stop)), rest.dropWhile (· != stop))

/-- What follows a start that the characters have. -/
theorem after?_append (start rest : String) : after? start (start ++ rest).toList = some rest.toList := by
  unfold after?
  rw [String.toList_append, if_pos (List.isPrefixOf_iff_prefix.mpr (List.prefix_append _ _)), List.drop_left]

theorem field?_append {n rest : String} {stop : Char} (hn : stop ∉ n.toList)
    (hrest : rest.toList.head? = some stop) :
    field? start stop (start ++ n ++ rest).toList = some (n, rest.toList) := by
  obtain ⟨more, hmore⟩ := List.head?_eq_some_iff.mp hrest
  have hall : ∀ c ∈ n.toList, (c != stop) = true := fun c hc =>
    bne_iff_ne.mpr fun he => hn (he ▸ hc)
  have hstop : ¬ (stop != stop) = true := by simp
  unfold field? after?
  rw [String.toList_append, String.toList_append, List.append_assoc,
    if_pos (List.isPrefixOf_iff_prefix.mpr (List.prefix_append _ _)), List.drop_left, Option.map_some,
    List.takeWhile_append_of_pos hall, List.dropWhile_append_of_pos hall, hmore,
    List.takeWhile_cons_of_neg (p := (· != stop)) hstop,
    List.dropWhile_cons_of_neg (p := (· != stop)) hstop, List.append_nil,
    String.ofList_toList]

/-- A field that ends with the line. -/
theorem field?_to_end {n : String} {stop : Char} (hn : stop ∉ n.toList) :
    field? start stop (start ++ n).toList = some (n, []) := by
  have hall : ∀ c ∈ n.toList, (c != stop) = true := fun c hc => bne_iff_ne.mpr fun he => hn (he ▸ hc)
  unfold field?
  rw [after?_append, Option.map_some, ← List.append_nil n.toList, List.takeWhile_append_of_pos hall,
    List.dropWhile_append_of_pos hall, List.takeWhile_nil, List.dropWhile_nil, List.append_nil,
    String.ofList_toList]

/-- Nothing follows a start of which the characters lack one. -/
theorem after?_eq_none {c : Char} (hc : c ∈ start.toList) (h : c ∉ cs) : after? start cs = none := by
  unfold after?
  rw [if_neg]
  exact fun hprefix => h ((List.isPrefixOf_iff_prefix.mp hprefix).subset hc)

/-- Nothing follows a start where characters start otherwise. -/
theorem after?_eq_none_of_start (hcs : ∀ c ∈ cs.head?, c ∈ starts) (h : ∃ c ∈ start.toList.head?, c ∉ starts) :
    after? start cs = none := by
  obtain ⟨c, hc, hnot⟩ := h
  unfold after?
  rw [if_neg]
  intro hprefix
  obtain ⟨rest, rfl⟩ := List.isPrefixOf_iff_prefix.mp hprefix
  refine hnot (hcs c ?_)
  rw [List.head?_append, hc]
  rfl

/-- There is no field where characters start otherwise. -/
theorem field?_eq_none {stop : Char} (hcs : ∀ c ∈ cs.head?, c ∈ starts)
    (h : ∃ c ∈ start.toList.head?, c ∉ starts) : field? start stop cs = none := by
  unfold field?
  rw [after?_eq_none_of_start hcs h, Option.map_none]

/-! ## Blocks of lines -/

/-- The lines after the first one that opens a block, up to the one that closes it. -/
def block (opens : String → Bool) (close : String) (lines : List String) : List String :=
  ((lines.dropWhile fun line => !opens line).drop 1).takeWhile (· != close)

theorem block_append {opens : String → Bool} {opening close : String} {before body after : List String}
    (hbefore : ∀ line ∈ before, opens line = false) (hopens : opens opening = true) (hbody : close ∉ body) :
    block opens close (before ++ opening :: (body ++ close :: after)) = body := by
  have hclose : ∀ line ∈ body, (line != close) = true := fun line hline =>
    bne_iff_ne.mpr fun he => hbody (he ▸ hline)
  unfold block
  rw [List.dropWhile_append_of_pos fun line hline => by rw [hbefore line hline]; rfl,
    List.dropWhile_cons_of_neg (by rw [hopens]; decide), List.drop_one, List.tail_cons,
    List.takeWhile_append_of_pos hclose, List.takeWhile_cons_of_neg (by simp), List.append_nil]

theorem spaced_singleton (block : List String) : spaced [block] = block := List.intercalate_singleton

theorem spaced_cons_cons (block next : List String) (rest : List (List String)) :
    spaced (block :: next :: rest) = block ++ "" :: spaced (next :: rest) := by
  unfold spaced
  rw [List.intercalate_cons_cons, List.append_assoc, List.singleton_append]

theorem mem_spaced {blocks : List (List String)} (h : l ∈ spaced blocks) :
    l = "" ∨ ∃ block ∈ blocks, l ∈ block := by
  induction blocks with
  | nil => cases h
  | cons block rest ih =>
    cases rest with
    | nil =>
      rw [spaced_singleton] at h
      exact .inr ⟨block, List.mem_singleton.mpr rfl, h⟩
    | cons next more =>
      rw [spaced_cons_cons, List.mem_append, List.mem_cons] at h
      rcases h with h | h | h
      · exact .inr ⟨block, List.mem_cons_self, h⟩
      · exact .inl h
      · exact (ih h).imp_right fun ⟨b, hb, hl⟩ => ⟨b, List.mem_cons_of_mem _ hb, hl⟩

theorem filterMap_spaced {α : Type} {f : String → Option α} (h : f "" = none) (blocks : List (List String)) :
    (spaced blocks).filterMap f = blocks.flatMap fun block => block.filterMap f := by
  induction blocks with
  | nil => rfl
  | cons block rest ih =>
    cases rest with
    | nil => rw [spaced_singleton, List.flatMap_singleton]
    | cons next more =>
      rw [spaced_cons_cons, List.filterMap_append, List.filterMap_cons_none h, ih]
      exact List.flatMap_cons.symm

end SchemaGen.Text
