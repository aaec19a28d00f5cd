/-!
# Text cut and put together

A text is cut into the stretches between separators, or into lines. A line ends at a line feed, together with
the carriage return before it if there is one; a text that ends with a line feed has no further, empty line
after it. Generated text is worked out as a list of lines, each of which is ended by a line feed.

Results:
1. `splitAt_ne_nil`: there is always a stretch, if only an empty one.
2. `lines_append_newline`: a newline-free front followed by a line feed is the first line.
3. `unlines_append`: the text of two lists of lines is that of the first and then that of the second.
-/

namespace SchemaGen.Text

/-! ## Stretches -/

/-- The stretches of a text between separators. -/
def splitAt (sep : Char) : List Char → List (List Char)
  | [] => [[]]
  | c :: rest =>
    if c = sep then [] :: splitAt sep rest
    else match splitAt sep rest with
      | [] => [[c]]
      | first :: others => (c :: first) :: others

theorem splitAt_ne_nil (sep : Char) (cs : List Char) : splitAt sep cs ≠ [] := by
  cases cs with
  | nil => simp [splitAt]
  | cons c rest =>
    unfold splitAt
    split
    · simp
    · split <;> simp

example : splitAt '/' "a//b".toList = ["a".toList, [], "b".toList] := by decide

/-! ## Lines of a text -/

/-- Drops the carriage return that belongs to a line end. -/
def dropReturn : List Char → List Char
  | [] => []
  | ['\r'] => []
  | c :: r => c :: dropReturn r

/-- The lines of a text; `current` holds the line read so far, last character first. -/
def linesFrom (current : List Char) : List Char → List (List Char)
  | [] => if current.isEmpty then [] else [current.reverse]
  | c :: r => if c = '\n' then dropReturn current.reverse :: linesFrom [] r else linesFrom (c :: current) r

/-- The lines of a text without their ends. -/
def lineChars (cs : List Char) : List (List Char) := linesFrom [] cs

/-- The lines of a text without their ends. -/
def lines (s : String) : List String := (lineChars s.toList).map String.ofList

theorem linesFrom_append (current front rest : List Char) (h : '\n' ∉ front) :
    linesFrom current (front ++ rest) = linesFrom (front.reverse ++ current) rest := by
  induction front generalizing current with
  | nil => rfl
  | cons c r ih =>
    have hc : c ≠ '\n' := fun e => h (by simp [e])
    have hr : '\n' ∉ r := fun m => h (List.mem_cons_of_mem _ m)
    simp [linesFrom, hc, ih (c :: current) hr]

theorem lines_append_newline (front rest : List Char) (h : '\n' ∉ front) :
    lineChars (front ++ '\n' :: rest) = dropReturn front :: lineChars rest := by
  simp [lineChars, linesFrom_append [] front ('\n' :: rest) h, linesFrom]

example : lineChars "a\r\n\nb\r".toList = ["a".toList, [], "b\r".toList] := by decide

/-! ## Lines put together -/

/-- The text of lines. -/
def unlines (lines : List String) : String := String.join (lines.map fun l => l ++ "\n")

/-- Blocks of lines with one empty line between neighbours. -/
def spaced (blocks : List (List String)) : List String := [""].intercalate blocks

/-- A count of spaces. -/
def spaces (n : Nat) : String := String.ofList (List.replicate n ' ')

theorem unlines_append (a b : List String) : unlines (a ++ b) = unlines a ++ unlines b := by
  simp [unlines]

/-! ## Replacements -/

/-- Replaces occurrences of the characters `pattern` by `new` from the left, in so many steps. -/
def replaceFrom (pattern new : List Char) : Nat → List Char → List Char
  | 0, cs => cs
  | _ + 1, [] => []
  | fuel + 1, c :: rest =>
    if pattern.isPrefixOf (c :: rest) && !pattern.isEmpty then
      new ++ replaceFrom pattern new fuel ((c :: rest).drop pattern.length)
    else c :: replaceFrom pattern new fuel rest

/-- Replaces every occurrence of the characters `pattern` by `new`, from the left. -/
def replaceChars (pattern new : List Char) (cs : List Char) : List Char :=
  replaceFrom pattern new cs.length cs

/-- The text with every occurrence of `pattern` replaced by `new`. -/
def replaceAll (pattern new s : String) : String :=
  String.ofList (replaceChars pattern.toList new.toList s.toList)

example : replaceChars "*/".toList "*\\/".toList "a*/*/".toList = "a*\\/*\\/".toList := by decide

end SchemaGen.Text
