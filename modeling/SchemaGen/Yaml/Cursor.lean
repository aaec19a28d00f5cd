/-!
# Places in a source

The character classes of the block format, and a cursor that walks a source and knows its line and
column.
-/

namespace SchemaGen.Yaml

/-- The characters that a source may hold. -/
def isAllowed (c : Char) : Bool :=
  let n := c.toNat
  n == 0x09 || n == 0x0A || n == 0x0D || (0x20 ≤ n && n ≤ 0x7E) || n == 0x85 ||
    (0xA0 ≤ n && n ≤ 0xD7FF) || (0xE000 ≤ n && n ≤ 0xFFFD) || 0x10000 ≤ n

/-- A space or a tab. -/
def isGap (c : Char) : Bool := c == ' ' || c == '\t'

/-- A character that ends a line. -/
def isBreak (c : Char) : Bool :=
  c == '\n' || c == '\r' || c == '\x85' || c == '\u2028' || c == '\u2029'

/-- Whether the source, a line or a word ends here. -/
def isEnd (c : Option Char) : Bool := c.all fun c => isGap c || isBreak c

/-- Whether the source or a line ends here. -/
def isLineEnd (c : Option Char) : Bool := c.all isBreak

/-- The characters of anchors, handles and directive names. -/
def isWord (c : Char) : Bool := c.isAlphanum || c == '_' || c == '-'

/-- How many bytes characters take. -/
def byteLength (cs : List Char) : Nat := cs.foldl (fun n c => n + c.utf8Size) 0

/-- What is left of a source, and where that starts. -/
structure Cursor where
  rest : List Char
  /-- A number of characters that the whole source does not exceed. -/
  bound : Nat
  /-- The number of bytes that stand before. -/
  index : Nat
  line : Nat
  column : Nat
  deriving Repr

namespace Cursor

/-- The start of a source. -/
def start (source : List Char) : Cursor := ⟨source, source.length, 0, 0, 0⟩

/-- The next character. -/
def peek (c : Cursor) : Option Char := c.rest.head?

/-- The character `n` places on. -/
def ahead (c : Cursor) (n : Nat) : Option Char := c.rest[n]?

/-- Whether `ch` stands next. -/
def isAt (c : Cursor) (ch : Char) : Bool := c.peek == some ch

/-- The place `n` characters on, in the same line. -/
def advance (c : Cursor) (n : Nat) : Cursor :=
  { c with
    rest := c.rest.drop n
    index := c.index + byteLength (c.rest.take n)
    column := c.column + n }

/-- The place after the line break that stands here; without one, the same place. -/
def newline (c : Cursor) : Cursor :=
  match c.rest with
  | '\r' :: '\n' :: rest => ⟨rest, c.bound, c.index + 2, c.line + 1, 0⟩
  | ch :: rest => if isBreak ch then ⟨rest, c.bound, c.index + ch.utf8Size, c.line + 1, 0⟩ else c
  | [] => c

/-- The line break that stands here, as it reads inside a scalar: the separators of Unicode as they
are, every other break as a line feed. -/
def breakText (c : Cursor) : List Char :=
  match c.rest with
  | ch :: _ =>
    if ch == '\u2028' || ch == '\u2029' then [ch]
    else if isBreak ch then ['\n'] else []
  | [] => []

/-- The longest stretch of characters of a class, and the place after it. -/
def span (p : Char → Bool) (c : Cursor) : List Char × Cursor :=
  let stretch := c.rest.takeWhile p
  (stretch, c.advance stretch.length)

/-- The place after a stretch of characters of a class. -/
def skip (p : Char → Bool) (c : Cursor) : Cursor := (c.span p).2

/-- The end of the line, if a comment starts here. -/
def skipComment (c : Cursor) : Cursor := if c.isAt '#' then c.skip fun ch => !isBreak ch else c

/-- Whether a line starts here with three times the same mark that stands alone. -/
def isMarker (c : Cursor) (mark : Char) : Bool :=
  c.column == 0 && c.rest.take 3 == [mark, mark, mark] && isEnd (c.ahead 3)

/-- Whether a document starts or ends here. -/
def isDocumentMark (c : Cursor) : Bool := c.isMarker '-' || c.isMarker '.'

end Cursor

end SchemaGen.Yaml
