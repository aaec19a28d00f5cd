/-!
# Words of an identifier

An identifier is read as a list of words. Characters other than ASCII letters and digits separate
words; inside a run a word starts at an upper-case letter that follows a lower-case letter or a
digit, and at the last letter of an upper-case run that goes on in lower case, so that
`XMLHttpRequest` reads as `XML`, `Http`, `Request`. Digits stay with the word they follow.

`compact` is the way back: words are put next to each other, with a `_` between two that would not
be read as these two words.

Results:
1. `split_eq_nil_iff`: only a text without a letter or digit has no word.
-/

namespace SchemaGen.Naming

/-- A word holds ASCII letters and digits. -/
abbrev Word := List Char

/-- Whether a new word starts at `c`, which follows `prev` in the same run and stands before `next`. -/
def startsWord (prev c : Char) (next : Option Char) : Bool :=
  c.isUpper && (prev.isLower || prev.isDigit || (prev.isUpper && next.any Char.isLower))

/-- The word that `current` holds, last character first, if it holds any. -/
def flush (current : List Char) : List Word :=
  if current.isEmpty then [] else [current.reverse]

/-- The words of a text that goes on after the word part `current`, last character first. -/
def splitFrom : List Char → List Char → List Word
  | current, [] => flush current
  | current, c :: rest =>
    if c.isAlphanum then
      match current with
      | [] => splitFrom [c] rest
      | prev :: before =>
        if startsWord prev c rest.head? then (prev :: before).reverse :: splitFrom [c] rest
        else splitFrom (c :: prev :: before) rest
    else flush current ++ splitFrom [] rest

/-- The words of a text, with the case they were written in. -/
def split (cs : List Char) : List Word := splitFrom [] cs

/-- Whether two neighbours are read as themselves when nothing stands between them. -/
def separates (prev word : Word) : Bool := split (prev ++ word) == [prev, word]

/-- The words that follow `prev`, put next to each other. -/
def compactAfter (prev : Word) : List Word → List Char
  | [] => []
  | word :: rest =>
    (if separates prev word then word else '_' :: word) ++ compactAfter word rest

/-- Words put next to each other, with a `_` between neighbours that would merge. -/
def compact : List Word → List Char
  | [] => []
  | word :: rest => word ++ compactAfter word rest

/-- Words with the separator `sep` between neighbours. -/
def joinWith (sep : Char) : List Word → List Char
  | [] => []
  | [word] => word
  | word :: rest => word ++ sep :: joinWith sep rest

theorem splitFrom_ne_nil (c : Char) (current cs : List Char) : splitFrom (c :: current) cs ≠ [] := by
  induction cs generalizing c current with
  | nil => simp [splitFrom, flush]
  | cons d rest ih =>
    unfold splitFrom
    split
    · dsimp only
      split
      · simp
      · exact ih _ _
    · simp [flush]

theorem split_eq_nil_iff (cs : List Char) : split cs = [] ↔ ∀ c ∈ cs, c.isAlphanum = false := by
  unfold split
  induction cs with
  | nil => simp [splitFrom, flush]
  | cons d rest ih =>
    by_cases h : d.isAlphanum = true
    · simp [splitFrom, h, splitFrom_ne_nil]
    · simp only [Bool.not_eq_true] at h
      simp [splitFrom, h, flush, ih]

example : split "XMLHttpRequest".toList = ["XML".toList, "Http".toList, "Request".toList] := by decide
example : split "status-index__v2".toList = ["status".toList, "index".toList, "v2".toList] := by decide
example : compact ["A".toList, "B".toList] = "A_B".toList := by decide

end SchemaGen.Naming
