import SchemaGen.Proofs.Text.Occurrences
import SchemaGen.Target.ClientModel.Item
import SchemaGen.Target.HostModel.Item

/-!
# Descriptions as comments

A description is written into a comment before what it describes. In the client models the comment ends at the
first `*/`, so that a mark of the text is broken up by a backslash. That is done before the text is cut into
lines, trimmed and put between other characters; none of this brings a new mark about, as the lines are parts
of the text and a blank or a line end stands wherever a part meets another one. In the host models the comment
ends with its line, so that every line starts with a mark of its own.

Results:
1. `occurrences_commentText`: no mark that closes a comment is left in its text.
2. `exists_unlines_commentLines`: what stands between the marks of a comment.
3. `comments_close`: descriptions end where their comments do.
-/

namespace SchemaGen

open Text

/-! ## Indents -/

theorem occurrences_spaces (n : Nat) : occurrences ['*', '/'] (spaces n).toList = 0 :=
  occurrences_eq_zero_of_not_mem (a := '*') List.mem_cons_self (not_mem_spaces (by decide) n)

theorem head?_spaces_append (n : Nat) : ((spaces n).toList ++ [' ']).head? ≠ some '/' := by
  intro h
  rcases List.mem_append.mp (List.mem_of_mem_head? h) with hm | hm
  · exact not_mem_spaces (by decide) n hm
  · exact absurd (List.mem_singleton.mp hm) (by decide)

/-! ## Comments between marks -/

namespace ClientModel

variable {cs body : List Char} {indent : String}

/-- What follows a comment, read from after the mark that opens it. -/
def afterComment? : List Char → Option (List Char)
  | [] => none
  | '*' :: '/' :: rest => some rest
  | _ :: rest => afterComment? rest

/-- A comment goes on as long as it is not closed. -/
theorem afterComment?_append (h : occurrences ['*', '/'] body = 0) (rest : List Char) :
    afterComment? (body ++ '*' :: '/' :: rest) = some rest := by
  induction body with
  | nil => rfl
  | cons c more ih =>
    rw [occurrences_cons, Nat.add_eq_zero_iff] at h
    obtain ⟨hmore, hstart⟩ := h
    rw [List.cons_append, afterComment?.eq_3, ih hmore]
    -- a mark does not start at the first character
    rintro tail rfl he
    cases more with
    | nil => cases he
    | cons d others =>
      obtain ⟨rfl, -⟩ := List.cons.inj he
      cases hstart

theorem head?_replaceChars (cs : List Char) :
    (replaceChars ['*', '/'] ['*', '\\', '/'] cs).head? = cs.head? := by
  cases cs with
  | nil => rfl
  | cons c rest =>
    by_cases h : ['*', '/'] <+: c :: rest
    · obtain ⟨more, hmore⟩ := h
      rw [← hmore, replaceChars_append (List.cons_ne_nil _ _)]
      rfl
    · rw [replaceChars_cons h]
      rfl

theorem occurrences_replaceChars (cs : List Char) :
    occurrences ['*', '/'] (replaceChars ['*', '/'] ['*', '\\', '/'] cs) = 0 := by
  induction hn : cs.length using Nat.strongRecOn generalizing cs with
  | ind n ih =>
    cases cs with
    | nil => rfl
    | cons c rest =>
      by_cases h : ['*', '/'] <+: c :: rest
      · obtain ⟨more, hmore⟩ := h
        have hlength : more.length < n := by
          rw [← hn, ← hmore, List.length_append]
          simp
        rw [← hmore, replaceChars_append (List.cons_ne_nil _ _), occurrences_append (.inl (by decide)),
          ih _ hlength more rfl]
        rfl
      · rw [replaceChars_cons h, occurrences_cons, ih _ (by simp [← hn]) rest rfl, Nat.zero_add, if_neg]
        intro hprefix
        obtain ⟨tail, he⟩ := List.isPrefixOf_iff_prefix.mp hprefix
        obtain ⟨rfl, htail⟩ := List.cons.inj he
        -- what is replaced starts as it did
        have hhead := head?_replaceChars rest
        rw [← htail] at hhead
        obtain ⟨more, rfl⟩ := List.head?_eq_some_iff.mp hhead.symm
        exact h ⟨more, rfl⟩

/-- No mark that closes a comment is left in its text. -/
theorem occurrences_commentText (text : String) : occurrences ['*', '/'] (commentText text).toList = 0 := by
  unfold commentText replaceAll
  rw [String.toList_ofList]
  exact occurrences_replaceChars _

theorem toList_unlines_singleton (l : String) : (unlines [l]).toList = l.toList ++ ['\n'] := by
  rw [toList_unlines, List.flatMap_singleton]

/-- No mark that closes a comment stands on a line that goes on with a part of the text. -/
theorem occurrences_line (n : Nat) {line : List Char} (h : occurrences ['*', '/'] line = 0) :
    occurrences ['*', '/'] ((spaces n ++ " * ").toList ++ line ++ ['\n']) = 0 := by
  have hlast : (spaces n ++ " * ").toList.getLast? ≠ some '*' := by
    rw [String.toList_append, List.getLast?_append_of_ne_nil _ (by decide)]
    decide
  rw [occurrences_append (.inr (by decide)), occurrences_append (.inl hlast), h, String.toList_append,
    occurrences_append (.inr (by decide)), occurrences_spaces]
  rfl

/-- What stands between the marks of a comment. -/
theorem exists_unlines_commentLines (n : Nat) (text : String) :
    ∃ body, (unlines (commentLines (spaces n) text)).toList =
        (spaces n ++ "/*").toList ++ (body ++ ['*', '/', '\n']) ∧
      body.head? = some '*' ∧ occurrences ['*', '/'] body = 0 ∧
        ∀ line ∈ lineChars (commentText text).toList, trimRight line <:+: body := by
  have htext := occurrences_commentText text
  unfold commentLines
  dsimp only
  split
  · refine ⟨['*', '\n'] ++ (lineChars (commentText text).toList).flatMap (fun line =>
      (spaces n ++ " * ").toList ++ trimRight line ++ ['\n']) ++ ((spaces n).toList ++ [' ']),
      ?_, rfl, ?_, fun line hline => ?_⟩
    · rw [unlines_append, unlines_append]
      simp only [String.toList_append, toList_unlines_singleton, toList_unlines_lines, List.append_assoc]
      rfl
    · have hlines := occurrences_flatMap (a := '*') (b := '/') fun line hline =>
        have hpart := (prefix_trimRight line).isInfix.trans (infix_of_mem_lineChars hline)
        ⟨occurrences_line n (occurrences_eq_zero_of_part htext hpart), by rw [List.getLast?_concat]; decide⟩
      rw [occurrences_append (.inr (head?_spaces_append n)), occurrences_append (.inl (by decide)), hlines,
        occurrences_append (.inr (by decide)), occurrences_spaces]
      rfl
    · have hpart : trimRight line <:+: (spaces n ++ " * ").toList ++ trimRight line ++ ['\n'] :=
        List.infix_append _ _ _
      have hall := hpart.trans (infix_flatMap hline fun line =>
        (spaces n ++ " * ").toList ++ trimRight line ++ ['\n'])
      exact hall.trans (List.infix_append _ _ _)
  · next hone =>
    refine ⟨['*', ' '] ++ (commentText text).toList ++ [' '], ?_, rfl, ?_, fun line hline => ?_⟩
    · rw [toList_unlines_singleton]
      simp only [String.toList_append, List.append_assoc]
      rfl
    · rw [occurrences_append (.inr (by decide)), occurrences_append (.inl (by decide)), htext]
      rfl
    · exact ((prefix_trimRight line).isInfix.trans (infix_of_mem_lineChars hline)).trans (List.infix_append _ _ _)

end ClientModel

/-! ## Comments of lines -/

namespace HostModel

/-- What a line of a comment says: what follows its mark, and the blank after that. -/
def docText? (indent line : String) : Option String :=
  (after? (indent ++ "///") line.toList).map fun cs => String.ofList (if cs.head? = some ' ' then cs.tail else cs)

theorem docText?_docLine (indent line : String) : docText? indent (docLine indent line) = some (trimEnd line) := by
  unfold docLine docText?
  split
  · next hblank =>
    have hnone : trimRight line.toList = [] := by
      rw [trimRight, List.reverse_eq_nil_iff]
      exact (trimLeft_eq_nil_iff _).mpr fun c hc => List.all_eq_true.mp hblank c (List.mem_reverse.mp hc)
    have hafter := after?_append (indent ++ "///") ""
    rw [String.append_empty] at hafter
    rw [hafter, trimEnd, hnone]
    rfl
  · have hmark : indent ++ "/// " ++ trimEnd line = indent ++ "///" ++ (" " ++ trimEnd line) := by
      rw [show "/// " = "///" ++ " " from rfl]
      simp only [String.append_assoc]
    have hblank : (" " ++ trimEnd line).toList = ' ' :: (trimEnd line).toList := String.toList_append
    rw [hmark, after?_append, hblank, Option.map_some, List.head?_cons, if_pos rfl, List.tail_cons,
      String.ofList_toList]

theorem isLine_docLine (n : Nat) {line : String} (h : '\n' ∉ line.toList) : IsLine (docLine (spaces n) line) := by
  have hindent := not_mem_spaces (c := '\n') (by decide) n
  unfold docLine
  split
  · exact isLine_append hindent (.of_chars rfl) (by decide)
  · exact (isLine_append hindent (.of_chars rfl) (by decide)).append (isLine_trimEnd h)

/-- The lines of a comment, whatever follows it. -/
theorem lines_docLines (n : Nat) (text rest : String) :
    lines (unlines (docLines (spaces n) text) ++ rest) = docLines (spaces n) text ++ lines rest := by
  refine lines_unlines_append (fun l hl => ?_) rest
  obtain ⟨line, hline, rfl⟩ := List.mem_map.mp hl
  exact isLine_docLine n (newline_not_mem_lines hline)

theorem lines_unlines_docLines (n : Nat) (text : String) :
    lines (unlines (docLines (spaces n) text)) = docLines (spaces n) text := by
  have hlines := lines_docLines n text ""
  rw [String.append_empty, show lines "" = [] from rfl, List.append_nil] at hlines
  exact hlines

end HostModel

/-! ## Descriptions -/

/-- A comment between marks, behind an indent and with the end of its line: the mark that closes a comment
occurs once, at the end, so that whoever stops at the first one finds what follows the comment. -/
structure IsBlockComment (indent : String) (cs : List Char) : Prop where
  marks : ∃ body, cs = (indent ++ "/**").toList ++ body ++ ['*', '/', '\n']
  once : occurrences ['*', '/'] cs = 1
  ends : ∀ rest, (after? (indent ++ "/*") (cs ++ rest)).bind ClientModel.afterComment? = some ('\n' :: rest)

/-- A comment of whole lines: each of them starts with an indent and the mark, and what follows the comment
stands on lines of its own. -/
structure IsLineComment (indent text : String) : Prop where
  marks : ∀ line ∈ lines text, (indent ++ "///").toList <+: line.toList
  ends : ∀ rest, lines (text ++ rest) = lines text ++ lines rest

theorem isBlockComment_commentLines (n : Nat) (text : String) :
    IsBlockComment (spaces n) (unlines (ClientModel.commentLines (spaces n) text)).toList := by
  obtain ⟨body, htext, hhead, hnone, -⟩ := ClientModel.exists_unlines_commentLines n text
  rw [htext]
  refine ⟨?_, ?_, fun rest => ?_⟩
  · obtain ⟨more, rfl⟩ := List.head?_eq_some_iff.mp hhead
    refine ⟨more, ?_⟩
    simp only [String.toList_append, List.append_assoc]
    rfl
  · have hmeet : (body ++ ['*', '/', '\n']).head? ≠ some '/' := by
      rw [List.head?_append, hhead]
      decide
    have hindent : (spaces n).toList.getLast? ≠ some '*' := fun h =>
      not_mem_spaces (by decide) n (List.mem_of_getLast? h)
    rw [occurrences_append (.inr hmeet), occurrences_append (.inr (by decide)), hnone, String.toList_append,
      occurrences_append (.inl hindent), occurrences_spaces]
    rfl
  · have hafter := after?_append (spaces n ++ "/*") (String.ofList (body ++ '*' :: '/' :: '\n' :: rest))
    rw [String.toList_append, String.toList_ofList] at hafter
    rw [List.append_assoc, List.append_assoc]
    exact (congrArg (Option.bind · ClientModel.afterComment?) hafter).trans
      (ClientModel.afterComment?_append hnone _)

theorem isLineComment_docLines (n : Nat) (text : String) :
    IsLineComment (spaces n) (unlines (HostModel.docLines (spaces n) text)) := by
  refine ⟨fun line hline => ?_, fun rest => ?_⟩
  · rw [HostModel.lines_unlines_docLines] at hline
    obtain ⟨more, rfl⟩ := HostModel.docLines_startsWith (spaces n) text line hline
    exact ⟨more.toList, String.toList_append.symm⟩
  · rw [HostModel.lines_docLines, HostModel.lines_unlines_docLines]

/-- Descriptions end where their comments do, whatever they say. Between marks stand the lines of the trimmed
description, in which its own marks are broken up; in a comment of lines, each one says what a line of the
description does. Of a line only blanks at its end are lost. -/
theorem comments_close (n : Nat) (text : String) :
    IsBlockComment (spaces n) (unlines (ClientModel.commentLines (spaces n) text)).toList ∧
      (∀ line ∈ lines (replaceAll "*/" "*\\/" (trim text)),
        (trimEnd line).toList <:+: (unlines (ClientModel.commentLines (spaces n) text)).toList) ∧
      IsLineComment (spaces n) (unlines (HostModel.docLines (spaces n) text)) ∧
      (lines (unlines (HostModel.docLines (spaces n) text))).map (HostModel.docText? (spaces n)) =
        (lines text).map fun line => some (trimEnd line) := by
  refine ⟨isBlockComment_commentLines n text, fun line hline => ?_, isLineComment_docLines n text, ?_⟩
  · obtain ⟨body, htext, -, -, hparts⟩ := ClientModel.exists_unlines_commentLines n text
    obtain ⟨chars, hchars, rfl⟩ := List.mem_map.mp hline
    have hpart := (hparts chars hchars).trans
      (List.infix_append (spaces n ++ "/*").toList body ['*', '/', '\n'])
    rw [htext, trimEnd, String.toList_ofList, String.toList_ofList, ← List.append_assoc]
    exact hpart
  · rw [HostModel.lines_unlines_docLines]
    unfold HostModel.docLines
    rw [List.map_map]
    exact List.map_congr_left fun line _ => HostModel.docText?_docLine (spaces n) line

/-- A description with marks at the end of a line and across a line end. -/
theorem comments_close_marks :
    let text := "/** a */ b *\n/ c */ "
    let comment := (unlines (ClientModel.commentLines (spaces 2) text)).toList
    comment = "  /**\n   * /** a *\\/ b *\n   * / c *\\/\n   */\n".toList ∧ occurrences ['*', '/'] comment = 1 ∧
      ("/ c *\\/" ∈ lines (replaceAll "*/" "*\\/" (trim text)) ∧ (trimEnd "/ c *\\/").toList <:+: comment) ∧
      "  /// / c */" ∈ lines (unlines (HostModel.docLines (spaces 2) text)) ∧
        (spaces 2 ++ "///").toList <+: "  /// / c */".toList := by
  intro text comment
  obtain ⟨hblock, hparts, hdoc, -⟩ := comments_close 2 text
  have hpart : "/ c *\\/" ∈ lines (replaceAll "*/" "*\\/" (trim text)) := by decide +kernel
  have hline : "  /// / c */" ∈ lines (unlines (HostModel.docLines (spaces 2) text)) := by decide +kernel
  exact ⟨by decide +kernel, hblock.once, ⟨hpart, hparts _ hpart⟩, hline, hdoc.marks _ hline⟩

end SchemaGen
