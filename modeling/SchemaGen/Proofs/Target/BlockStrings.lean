import Mathlib.Data.List.DropRight
import SchemaGen.Proofs.Text.Occurrences
import SchemaGen.Target.ApiSchema.Schema

/-!
# Descriptions as block strings

A description is written as a block string: between triple quotes, where a triple quote of the text has a
backslash before it. Whoever reads the block string passes over an escaped triple quote as a whole and ends
the text at the next triple quote. A description of several lines is closed on a line of its own and read
back as it was written. One of a single line is closed right after its last character; if this is a
backslash it takes the closing quotes into the text, and if it is a quote that was not escaped with two
others, the text ends too early and quotes are left over.

Results:
1. `blockText?_escape`: when an escaped text is read back.
2. `unlines_descriptionLines`: a description is the escaped form of what its block string holds.
3. `blockString?_descriptionLines`: when a description is one block string, and what it holds.
4. `exists_description_left_open`: a description that is none.
-/

namespace SchemaGen.ApiSchema

variable {c : Char} {cs rest : List Char}

/-! ## Block strings -/

/-- Reads a block string after its opening quotes: the text that it holds, and what follows its closing
quotes. -/
def readBlock? : List Char → Option (List Char × List Char)
  | [] => none
  | '\\' :: '"' :: '"' :: '"' :: rest =>
    (readBlock? rest).map fun read => ('"' :: '"' :: '"' :: read.1, read.2)
  | '"' :: '"' :: '"' :: rest => some ([], rest)
  | c :: rest => (readBlock? rest).map fun read => (c :: read.1, read.2)

/-- The text of a block string that is followed by the end of the line and nothing else, read after its
opening quotes. -/
def blockText? (cs : List Char) : Option (List Char) :=
  (readBlock? cs).bind fun read => if read.2 = ['\n'] then some read.1 else none

/-- The text of the block string that a text consists of, after an indent and with the end of its line. -/
def blockString? (indent text : String) : Option String :=
  ((Text.after? (indent ++ tripleQuote) text.toList).bind blockText?).map String.ofList

/-- How many quotes the characters end with. -/
def quotesAtEnd (cs : List Char) : Nat := (cs.rtakeWhile (· == '"')).length

/-- The characters can be closed by a triple quote right after them: they do not end with a backslash, and
the quotes that they end with are escaped three by three. -/
def Closes (cs : List Char) : Prop := cs.getLast? ≠ some '\\' ∧ 3 ∣ quotesAtEnd cs

instance (cs : List Char) : Decidable (Closes cs) :=
  inferInstanceAs (Decidable (cs.getLast? ≠ some '\\' ∧ 3 ∣ quotesAtEnd cs))

/-! ## Escapes -/

/-- The characters with a backslash before each triple quote. -/
def escape : List Char → List Char
  | [] => []
  | '"' :: '"' :: '"' :: rest => '\\' :: '"' :: '"' :: '"' :: escape rest
  | c :: rest => c :: escape rest

theorem replaceChars_eq_escape (cs : List Char) :
    Text.replaceChars tripleQuote.toList ("\\" ++ tripleQuote).toList cs = escape cs := by
  induction cs using escape.induct with
  | case1 => rfl
  | case2 rest ih =>
    rw [escape, ← ih]
    exact Text.replaceChars_append (by decide) rest
  | case3 c rest hnot ih =>
    rw [escape.eq_3 _ _ hnot, ← ih]
    refine Text.replaceChars_cons ?_
    rintro ⟨more, he⟩
    obtain ⟨rfl, rfl⟩ := List.cons.inj he
    exact hnot more rfl rfl

theorem escape_cons (h : ∀ more, c :: cs ≠ '"' :: '"' :: '"' :: more) : escape (c :: cs) = c :: escape cs := by
  rw [escape]
  rintro more rfl rfl
  exact h _ rfl

/-- What is not a quote divides the characters into parts that are escaped by themselves. -/
theorem escape_append_cons (h : c ≠ '"') (before after : List Char) :
    escape (before ++ c :: after) = escape before ++ c :: escape after := by
  induction before using escape.induct with
  | case1 =>
    refine escape_cons fun more he => h ?_
    cases he
    rfl
  | case2 more ih =>
    rw [List.cons_append, List.cons_append, List.cons_append, escape, escape, ih]
    rfl
  | case3 d more hnot ih =>
    have hsplit : ∀ rest, d :: (more ++ c :: after) ≠ '"' :: '"' :: '"' :: rest := by
      intro rest he
      rcases more with _ | ⟨d', _ | ⟨d'', more⟩⟩ <;>
        simp only [List.cons_append, List.nil_append, List.cons.injEq] at he
      · exact h he.2.1
      · exact h he.2.2.1
      · exact hnot more he.1 (by rw [he.2.1, he.2.2.1])
    rw [List.cons_append, escape_cons hsplit, ih, escape.eq_3 _ _ hnot, List.cons_append]

theorem escape_append_of_plain {before : List Char} (h : '"' ∉ before) (after : List Char) :
    escape (before ++ after) = before ++ escape after := by
  induction before with
  | nil => rfl
  | cons c before ih =>
    rw [List.mem_cons, not_or] at h
    have hsplit := escape_append_cons (Ne.symm h.1) [] (before ++ after)
    rw [List.nil_append, escape, List.nil_append] at hsplit
    rw [List.cons_append, hsplit, ih h.2, List.cons_append]

theorem mem_escape_iff (h : c ≠ '\\') : c ∈ escape cs ↔ c ∈ cs := by
  induction cs using escape.induct with
  | case1 => exact Iff.rfl
  | case2 more ih => simp [escape, ih, h]
  | case3 d more hnot ih => rw [escape.eq_3 _ _ hnot, List.mem_cons, List.mem_cons, ih]

theorem getLast?_escape (cs : List Char) : (escape cs).getLast? = cs.getLast? := by
  induction cs using escape.induct with
  | case1 => rfl
  | case2 more ih => simp [escape, List.getLast?_cons, ih]
  | case3 d more hnot ih => rw [escape.eq_3 _ _ hnot, List.getLast?_cons, List.getLast?_cons, ih]

/-! ## Lines of escaped texts -/

theorem dropReturn_concat (cs : List Char) : Text.dropReturn (cs ++ ['\r']) = cs := by
  induction cs with
  | nil => rfl
  | cons c rest ih =>
    rw [List.cons_append, Text.dropReturn.eq_3 _ _ (by simp), ih]

theorem escape_dropReturn (cs : List Char) : escape (Text.dropReturn cs) = Text.dropReturn (escape cs) := by
  by_cases hlast : cs.getLast? = some '\r'
  · obtain ⟨before, rfl⟩ := List.getLast?_eq_some_iff.mp hlast
    rw [escape_append_cons (by decide), dropReturn_concat]
    exact (dropReturn_concat _).symm
  · rw [Text.dropReturn_eq hlast, Text.dropReturn_eq (by rwa [getLast?_escape])]

theorem lineChars_eq_of_line (h : '\n' ∉ cs) : Text.lineChars cs = if cs = [] then [] else [cs] := by
  have hfrom := Text.linesFrom_append [] cs [] h
  rw [List.append_nil, List.append_nil] at hfrom
  unfold Text.lineChars
  rw [hfrom, Text.linesFrom, List.isEmpty_reverse, List.reverse_reverse]
  cases cs <;> rfl

/-- The lines of an escaped text are its lines, escaped. -/
theorem lineChars_escape (cs : List Char) :
    Text.lineChars (escape cs) = (Text.lineChars cs).map escape := by
  induction hn : cs.length using Nat.strongRecOn generalizing cs with
  | ind n ih =>
    by_cases hm : '\n' ∈ cs
    · obtain ⟨front, rest, rfl, hfront⟩ := List.eq_append_cons_of_mem hm
      have hlength : rest.length < n := by
        rw [← hn, List.length_append, List.length_cons]
        omega
      rw [escape_append_cons (by decide), Text.lines_append_newline _ _ hfront,
        Text.lines_append_newline _ _ (mt (mem_escape_iff (by decide)).mp hfront), List.map_cons,
        escape_dropReturn, ih _ hlength rest rfl]
    · rw [lineChars_eq_of_line hm, lineChars_eq_of_line (mt (mem_escape_iff (by decide)).mp hm)]
      rcases cs.eq_nil_or_concat' with rfl | ⟨before, last, rfl⟩
      · rfl
      · have hne : escape (before ++ [last]) ≠ [] := fun he => by
          have hlast := getLast?_escape (before ++ [last])
          rw [he, List.getLast?_concat] at hlast
          cases hlast
        rw [if_neg hne, if_neg (by simp), List.map_singleton]

theorem trimRight_escape (cs : List Char) : Text.trimRight (escape cs) = escape (Text.trimRight cs) := by
  change (escape cs).rdropWhile Text.isBlank = escape (cs.rdropWhile Text.isBlank)
  induction cs using List.reverseRecOn with
  | nil => rfl
  | append_singleton cs c ih =>
    cases hc : Text.isBlank c with
    | true =>
      have hquote : c ≠ '"' := by
        rintro rfl
        cases hc
      rw [escape_append_cons hquote, List.rdropWhile_concat_pos _ _ _ hc, ← ih]
      exact List.rdropWhile_concat_pos _ _ _ hc
    | false =>
      obtain ⟨before, hbefore⟩ := List.getLast?_eq_some_iff.mp
        ((getLast?_escape (cs ++ [c])).trans (List.getLast?_concat ..))
      rw [List.rdropWhile_concat_neg _ _ _ (by simp [hc]), hbefore,
        List.rdropWhile_concat_neg _ _ _ (by simp [hc])]

/-! ## Reading escaped texts -/

theorem blockText?_escaped (rest : List Char) :
    blockText? ('\\' :: '"' :: '"' :: '"' :: rest) = (blockText? rest).map ('"' :: '"' :: '"' :: ·) := by
  unfold blockText?
  rw [readBlock?]
  cases readBlock? rest with
  | none => rfl
  | some read => by_cases h : read.2 = ['\n'] <;> simp [h]

theorem blockText?_cons (h : ∀ more, c :: rest ≠ '"' :: '"' :: '"' :: more)
    (hescaped : c = '\\' → ∀ more, rest ≠ '"' :: '"' :: '"' :: more) :
    blockText? (c :: rest) = (blockText? rest).map (c :: ·) := by
  unfold blockText?
  rw [readBlock?.eq_4 _ _ (fun more hc he => hescaped hc more he) fun more hc he => h more (by rw [hc, he])]
  cases readBlock? rest with
  | none => rfl
  | some read => by_cases h : read.2 = ['\n'] <;> simp [h]

/-- An escaped text starts with a quote where the text does, and then two quotes do not follow. -/
theorem eq_cons_of_escape_append {m : List Char} (h : rest.head? ≠ some '"')
    (he : escape cs ++ rest = '"' :: m) :
    ∃ more, cs = '"' :: more ∧ escape more ++ rest = m ∧ ∀ end', more ≠ '"' :: '"' :: end' := by
  cases cs using escape.fun_cases with
  | case1 =>
    rw [escape, List.nil_append] at he
    rw [he] at h
    exact absurd rfl h
  | case2 more => cases he
  | case3 d more hnot =>
    rw [escape.eq_3 _ _ hnot, List.cons_append] at he
    obtain ⟨rfl, rfl⟩ := List.cons.inj he
    exact ⟨more, rfl, rfl, fun end' => hnot end' rfl⟩

/-- An escaped text does not start with a triple quote, whatever follows it but a quote. -/
theorem escape_append_ne (h : rest.head? ≠ some '"') (m : List Char) :
    escape cs ++ rest ≠ '"' :: '"' :: '"' :: m := by
  intro he
  obtain ⟨more, -, he, hnot⟩ := eq_cons_of_escape_append h he
  obtain ⟨more, rfl, he, -⟩ := eq_cons_of_escape_append h he
  obtain ⟨more, rfl, -, -⟩ := eq_cons_of_escape_append h he
  exact hnot more rfl

/-- An escaped text is passed over up to what follows it, if this does not start with a quote. -/
theorem blockText?_escape_append (h : rest.head? ≠ some '"') (cs : List Char) :
    blockText? (escape cs ++ rest) = (blockText? rest).map (cs ++ ·) := by
  induction cs using escape.induct with
  | case1 => exact (Option.map_id' (x := blockText? rest)).symm
  | case2 more ih =>
    rw [escape, List.cons_append, List.cons_append, List.cons_append, List.cons_append, blockText?_escaped,
      ih, Option.map_map]
    rfl
  | case3 c more hnot ih =>
    have hescape := escape.eq_3 _ _ hnot
    have hstart : ∀ m, escape (c :: more) ++ rest ≠ '"' :: '"' :: '"' :: m := escape_append_ne h
    rw [hescape, List.cons_append] at hstart
    rw [hescape, List.cons_append, blockText?_cons hstart fun _ => escape_append_ne h, ih, Option.map_map]
    rfl

/-- What is written after the text of a block string: its closing quotes and the end of the line. -/
def blockEnd : List Char := tripleQuote.toList ++ ['\n']

/-- Quotes that are closed by quotes are read back if they are escaped three by three. -/
theorem blockText?_quotes : ∀ k, blockText? (escape (List.replicate k '"') ++ blockEnd) =
    if 3 ∣ k then some (List.replicate k '"') else none
  | 0 => rfl
  | 1 => rfl
  | 2 => rfl
  | k + 3 => by
    have hdvd : 3 ∣ k + 3 ↔ 3 ∣ k := Nat.dvd_add_self_right
    rw [List.replicate_succ, List.replicate_succ, List.replicate_succ, escape, List.cons_append,
      List.cons_append, List.cons_append, List.cons_append, blockText?_escaped, blockText?_quotes k]
    by_cases h : 3 ∣ k <;> simp [h, hdvd]

/-- Quotes after another character are read back if they are escaped three by three, or if there are none
and the character is no backslash. -/
theorem blockText?_cons_quotes (h : c ≠ '"') (k : Nat) :
    blockText? (c :: (escape (List.replicate k '"') ++ blockEnd)) =
      if (k = 0 → c ≠ '\\') ∧ 3 ∣ k then some (c :: List.replicate k '"') else none := by
  have hstart : ∀ rest more, c :: rest ≠ '"' :: '"' :: '"' :: more := fun rest more he =>
    h (List.cons.inj he).1
  by_cases hc : c = '\\'
  · subst hc
    match k with
    | 0 => rfl
    | 1 => rfl
    | 2 => rfl
    | k + 3 =>
      rw [blockText?_cons (hstart _) fun _ more he => ?_, blockText?_quotes]
      · by_cases hdvd : 3 ∣ k + 3 <;> simp [hdvd]
      · rw [List.replicate_succ, List.replicate_succ, List.replicate_succ, escape] at he
        cases he
  · rw [blockText?_cons (hstart _) fun he => absurd he hc, blockText?_quotes]
    by_cases hdvd : 3 ∣ k <;> simp [hdvd, hc]

theorem quotesAtEnd_replicate (h : c ≠ '"') (before : List Char) (k : Nat) :
    quotesAtEnd (before ++ c :: List.replicate k '"') = k := by
  unfold quotesAtEnd List.rtakeWhile
  rw [List.length_reverse, List.reverse_append, List.reverse_cons, List.reverse_replicate, List.append_assoc,
    List.singleton_append, List.takeWhile_append_of_pos fun d hd => by simp [List.eq_of_mem_replicate hd],
    List.takeWhile_cons_of_neg (by simp [h]), List.append_nil, List.length_replicate]

/-- Characters are quotes, or end with quotes after another character. -/
theorem eq_quotes_or (cs : List Char) : ∃ k, cs = List.replicate k '"' ∨
    ∃ before c, c ≠ '"' ∧ cs = before ++ c :: List.replicate k '"' := by
  induction cs using List.reverseRecOn with
  | nil => exact ⟨0, .inl rfl⟩
  | append_singleton cs c ih =>
    by_cases hc : c = '"'
    · subst hc
      obtain ⟨k, rfl | ⟨before, d, hd, rfl⟩⟩ := ih
      · exact ⟨k + 1, .inl List.replicate_succ'.symm⟩
      · exact ⟨k + 1, .inr ⟨before, d, hd, by
          rw [List.append_assoc, List.cons_append, List.replicate_succ']⟩⟩
    · exact ⟨0, .inr ⟨cs, c, hc, rfl⟩⟩

/-- An escaped text is read back where its closing quotes can follow it. -/
theorem blockText?_escape (cs : List Char) :
    blockText? (escape cs ++ blockEnd) = if Closes cs then some cs else none := by
  obtain ⟨k, rfl | ⟨before, c, hc, rfl⟩⟩ := eq_quotes_or cs
  · have hcloses : Closes (List.replicate k '"') ↔ 3 ∣ k := by
      have hlast : (List.replicate k '"').getLast? ≠ some '\\' := fun he => by
        cases List.eq_of_mem_replicate (List.mem_of_getLast? he)
      have hquotes : quotesAtEnd (List.replicate k '"') = k := by
        unfold quotesAtEnd
        rw [List.rtakeWhile_eq_self_iff.mpr fun d hd => by simp [List.eq_of_mem_replicate hd],
          List.length_replicate]
      unfold Closes
      rw [hquotes]
      exact and_iff_right hlast
    simp only [hcloses, blockText?_quotes]
  · have hcloses : Closes (before ++ c :: List.replicate k '"') ↔ (k = 0 → c ≠ '\\') ∧ 3 ∣ k := by
      unfold Closes
      rw [quotesAtEnd_replicate hc, List.getLast?_append_of_ne_nil _ (List.cons_ne_nil _ _)]
      refine and_congr_left fun _ => ?_
      cases k with
      | zero => simp
      | succ k =>
        rw [List.replicate_succ', List.getLast?_cons, List.getLast?_concat]
        simp
    have hhead : (c :: (escape (List.replicate k '"') ++ blockEnd)).head? ≠ some '"' := fun he =>
      hc (Option.some.inj he)
    rw [escape_append_cons hc, List.append_assoc, List.cons_append, blockText?_escape_append hhead,
      blockText?_cons_quotes hc]
    by_cases h : (k = 0 → c ≠ '\\') ∧ 3 ∣ k
    · rw [if_pos h, if_pos (hcloses.mpr h), Option.map_some]
    · rw [if_neg h, if_neg (mt hcloses.mp h), Option.map_none]

/-! ## Descriptions -/

/-- What the block string of a description holds. -/
def heldText (indent text : String) : String :=
  if '\n' ∈ (Text.trim text).toList then
    "\n" ++ Text.unlines ((Text.lines (Text.trim text)).map fun l => indent ++ Text.trimEnd l) ++ indent
  else Text.trim text

theorem escaped_eq (text : String) : escaped text = String.ofList (escape (Text.trim text).toList) := by
  unfold escaped Text.replaceAll
  rw [replaceChars_eq_escape]

theorem escape_flatMap_lines {indent : List Char} (h : '"' ∉ indent) (ls : List (List Char))
    (rest : List Char) :
    escape ((ls.flatMap fun l => indent ++ l ++ ['\n']) ++ rest) =
      (ls.flatMap fun l => indent ++ escape l ++ ['\n']) ++ escape rest := by
  induction ls with
  | nil => rfl
  | cons l more ih =>
    have hline := escape_append_cons (c := '\n') (by decide) l
      ((more.flatMap fun l => indent ++ l ++ ['\n']) ++ rest)
    simp only [List.append_assoc] at hline ih
    simp only [List.flatMap_cons, List.append_assoc, List.cons_append, List.nil_append]
    rw [escape_append_of_plain h, hline, ih]

/-- The trimmed lines of an escaped text, with an indent each, are an escaped text. -/
theorem escape_lines {indent : List Char} (h : '"' ∉ indent) (cs : List Char) :
    escape ('\n' :: (((Text.lineChars cs).flatMap fun l => indent ++ Text.trimRight l ++ ['\n']) ++ indent)) =
      '\n' :: (((Text.lineChars (escape cs)).flatMap fun l => indent ++ Text.trimRight l ++ ['\n']) ++
        indent) := by
  have hindent := escape_append_of_plain h []
  rw [List.append_nil, escape, List.append_nil] at hindent
  have hlines := escape_flatMap_lines h ((Text.lineChars cs).map Text.trimRight) indent
  rw [List.flatMap_map, List.flatMap_map, hindent] at hlines
  rw [escape_cons (by simp), lineChars_escape, List.flatMap_map, hlines]
  simp only [trimRight_escape]

/-- A description is the escaped form of what its block string holds, between triple quotes. -/
theorem unlines_descriptionLines {indent : String} (h : '"' ∉ indent.toList) (text : String) :
    (Text.unlines (descriptionLines indent text)).toList =
      (indent ++ tripleQuote).toList ++ (escape (heldText indent text).toList ++ blockEnd) := by
  have hnewline : (escaped text).toList.contains '\n' = decide ('\n' ∈ (Text.trim text).toList) := by
    rw [escaped_eq, String.toList_ofList, List.contains_eq_mem]
    exact decide_eq_decide.mpr (mem_escape_iff (by decide))
  have hsingle : ∀ l, (Text.unlines [l]).toList = l.toList ++ ['\n'] := fun l => by
    rw [Text.toList_unlines, List.flatMap_singleton]
  simp only [descriptionLines, heldText, hnewline, decide_eq_true_eq]
  split
  · have hheld := escape_lines h (Text.trim text).toList
    rw [Text.unlines_append, Text.unlines_append, escaped_eq]
    simp only [String.toList_append, hsingle, Text.toList_unlines_lines, String.toList_ofList,
      List.append_assoc] at hheld ⊢
    rw [show "\n".toList = ['\n'] from rfl]
    simp only [List.cons_append, List.nil_append, hheld, List.append_assoc, blockEnd]
  · rw [escaped_eq, hsingle]
    simp only [String.toList_append, String.toList_ofList, List.append_assoc]
    rfl

theorem closes_of_getLast? (h : cs.getLast? = some c) (hquote : c ≠ '"') (hescape : c ≠ '\\') : Closes cs := by
  obtain ⟨before, rfl⟩ := List.getLast?_eq_some_iff.mp h
  refine ⟨fun he => hescape (Option.some.inj (h.symm.trans he)), ?_⟩
  rw [show quotesAtEnd (before ++ [c]) = 0 from quotesAtEnd_replicate hquote before 0]
  exact Nat.dvd_zero 3

/-- The closing quotes of a text of several lines stand on a line of their own. -/
theorem closes_heldText (n : Nat) {text : String} (h : '\n' ∈ (Text.trim text).toList) :
    Closes (heldText (Text.spaces n) text).toList := by
  unfold heldText Text.spaces
  rw [if_pos h, String.toList_append, String.toList_ofList]
  cases n with
  | succ n =>
    refine closes_of_getLast? (c := ' ') ?_ (by decide) (by decide)
    rw [List.replicate_succ', ← List.append_assoc, List.getLast?_concat]
  | zero =>
    refine closes_of_getLast? (c := '\n') ?_ (by decide) (by decide)
    rw [List.replicate_zero, List.append_nil, String.toList_append, Text.toList_unlines_lines]
    rcases (Text.lineChars (Text.trim text).toList).eq_nil_or_concat' with he | ⟨before, l, he⟩
    · rw [he]
      rfl
    · rw [he, List.flatMap_append, List.flatMap_singleton, ← List.append_assoc, ← List.append_assoc,
        List.getLast?_concat]

/-- What is held can be closed exactly if there are several lines, or the closing quotes can follow the text. -/
theorem closes_heldText_iff (n : Nat) (text : String) : Closes (heldText (Text.spaces n) text).toList ↔
    '\n' ∈ (Text.trim text).toList ∨ Closes (Text.trim text).toList := by
  by_cases h : '\n' ∈ (Text.trim text).toList
  · exact iff_of_true (closes_heldText n h) (.inl h)
  · unfold heldText
    rw [if_neg h]
    exact (or_iff_right h).symm

/-- A description is a block string exactly if it has several lines, or its closing quotes can follow it. -/
theorem blockString?_descriptionLines (n : Nat) (text : String) :
    blockString? (Text.spaces n) (Text.unlines (descriptionLines (Text.spaces n) text)) =
      if '\n' ∈ (Text.trim text).toList ∨ Closes (Text.trim text).toList then
        some (heldText (Text.spaces n) text)
      else none := by
  have hindent : '"' ∉ (Text.spaces n).toList := Text.not_mem_spaces (by decide) n
  have hcloses := closes_heldText_iff n text
  have hafter := Text.after?_append (Text.spaces n ++ tripleQuote)
    (String.ofList (escape (heldText (Text.spaces n) text).toList ++ blockEnd))
  rw [String.toList_append, String.toList_ofList, ← unlines_descriptionLines hindent] at hafter
  unfold blockString?
  rw [hafter, Option.bind_some, blockText?_escape]
  by_cases h : '\n' ∈ (Text.trim text).toList ∨ Closes (Text.trim text).toList
  · rw [if_pos h, if_pos (hcloses.mpr h), Option.map_some, String.ofList_toList]
  · rw [if_neg h, if_neg (mt hcloses.mp h), Option.map_none]

/-- A quote at the end of a text is read as the first of the closing ones, and one of these is left over; a
backslash at the end escapes the closing quotes. -/
theorem exists_description_left_open :
    (descriptionLines "" "say \"hi\"" = ["\"\"\"say \"hi\"\"\"\""] ∧
      readBlock? "say \"hi\"\"\"\"\n".toList = some ("say \"hi".toList, "\"\n".toList) ∧
      blockString? "" (Text.unlines (descriptionLines "" "say \"hi\"")) = none) ∧
    (descriptionLines "" "see C:\\" = ["\"\"\"see C:\\\"\"\""] ∧
      readBlock? "see C:\\\"\"\"\n".toList = none ∧
      blockString? "" (Text.unlines (descriptionLines "" "see C:\\")) = none) := by
  decide +kernel

end SchemaGen.ApiSchema
