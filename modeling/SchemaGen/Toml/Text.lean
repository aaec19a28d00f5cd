import SchemaGen.Decimal.Notation

/-!
# Quoted texts of settings files

A text stands in one line between single or double quotes, or over several lines between three of
them. Between double quotes a backslash starts an escape, or joins lines when it ends one. A line
break reads as a line feed, however it is written.
-/

namespace SchemaGen.Toml

/-- A source, or what is left of it. -/
abbrev Source := List Char

/-- A space or a tab. -/
def isGap (c : Char) : Bool := c == ' ' || c == '\t'

/-- The characters of a line: no control character but the tab. -/
def isLineChar (c : Char) : Bool := c == '\t' || (0x20 ≤ c.toNat && c.toNat != 0x7F)

/-- The source from the first character on that is no gap. -/
def skipGaps (cs : Source) : Source := cs.dropWhile isGap

/-- The source after the line break that it starts with. -/
def newline? : Source → Option Source
  | '\n' :: rest => some rest
  | '\r' :: '\n' :: rest => some rest
  | _ => none

/-- One more character in front of what is read. -/
def withChar (c : Option Char) (taken : Option (List Char × Source)) :
    Option (List Char × Source) := do
  let (cs, rest) ← taken
  return ((← c) :: cs, rest)

/-- The character that a letter after a backslash stands for. -/
def escaped? (c : Char) : Option Char :=
  match c with
  | 'b' => some '\x08'
  | 't' => some '\t'
  | 'n' => some '\n'
  | 'f' => some '\x0c'
  | 'r' => some '\r'
  | '"' => some '"'
  | '\\' => some '\\'
  | _ => none

/-- The character with a code point in digits of base 16. -/
def scalar? (digits : List Char) : Option Char := do
  let n ← Decimal.natural? 16 digits
  if n.isValidChar then some (Char.ofNat n) else none

/-- The mark of texts with escapes. -/
def doubleQuote : Char := '"'

/-- The mark of texts as they are. -/
def singleQuote : Char := '\x27'

/-- A text in one line, after its first quote. -/
def inLine (quote : Char) : Source → Option (List Char × Source)
  | [] => none
  | c :: rest =>
    if c = quote then some ([], rest)
    else if c = '\\' ∧ quote = doubleQuote then
      match rest with
      | 'u' :: a :: b :: c :: d :: more => withChar (scalar? [a, b, c, d]) (inLine quote more)
      | 'U' :: a :: b :: c :: d :: e :: f :: g :: h :: more =>
        withChar (scalar? [a, b, c, d, e, f, g, h]) (inLine quote more)
      | e :: more => withChar (escaped? e) (inLine quote more)
      | [] => none
    else if isLineChar c then withChar (some c) (inLine quote rest)
    else none

/-- Whether lines are being joined. -/
inductive Joining where
  | no
  /-- After the backslash, before the end of its line. -/
  | opened
  /-- Past the end of the line, where all gaps and line breaks are dropped. -/
  | past
  deriving DecidableEq, Repr

/-- The quotes at the end of a text over lines: three close it, and up to two before them belong to
it. -/
def closing (quote : Char) (cs : Source) : List Char × Source :=
  let extra := min ((cs.takeWhile (· == quote)).length - 3) 2
  (List.replicate extra quote, cs.drop (extra + 3))

/-- A text over lines, after its first three quotes. -/
def overLines (quote : Char) : Joining → Source → Option (List Char × Source)
  | _, [] => none
  | joining, c :: rest =>
    if c = '\n' then
      if joining = .no then withChar (some '\n') (overLines quote .no rest)
      else overLines quote .past rest
    else if c = '\r' then
      match rest with
      | '\n' :: more =>
        if joining = .no then withChar (some '\n') (overLines quote .no more)
        else overLines quote .past more
      | _ => none
    else if joining ≠ .no ∧ isGap c then overLines quote joining rest
    else if joining = .opened then none
    else if c = quote ∧ rest.take 2 = [quote, quote] then some (closing quote (c :: rest))
    else if c = '\\' ∧ quote = doubleQuote then
      match rest with
      | 'u' :: a :: b :: c :: d :: more => withChar (scalar? [a, b, c, d]) (overLines quote .no more)
      | 'U' :: a :: b :: c :: d :: e :: f :: g :: h :: more =>
        withChar (scalar? [a, b, c, d, e, f, g, h]) (overLines quote .no more)
      | e :: more =>
        if isGap e ∨ e = '\n' ∨ e = '\r' then overLines quote .opened (e :: more)
        else withChar (escaped? e) (overLines quote .no more)
      | [] => none
    else if isLineChar c then withChar (some c) (overLines quote .no rest)
    else none

/-- What was read, as a text. -/
def asText (taken : Option (List Char × Source)) : Option (String × Source) :=
  taken.map fun t => (String.ofList t.1, t.2)

/-- Whether a character starts a quoted text. -/
def isQuote (c : Char) : Bool := c == doubleQuote || c == singleQuote

/-- A text in one line, with its quotes. -/
def line? : Source → Option (String × Source)
  | c :: rest => if isQuote c then asText (inLine c rest) else none
  | [] => none

/-- A text, with its quotes. A line break right after three quotes does not count. -/
def text? (cs : Source) : Option (String × Source) :=
  match cs with
  | a :: b :: c :: rest =>
    if isQuote a ∧ b = a ∧ c = a then asText (overLines a .no ((newline? rest).getD rest)) else line? cs
  | _ => line? cs

end SchemaGen.Toml
