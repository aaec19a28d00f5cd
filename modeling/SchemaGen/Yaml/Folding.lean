import SchemaGen.Yaml.Token

/-!
# Scalars

The text of a scalar in each of its styles. Plain and quoted scalars may go on over several lines: a
single line break reads as a space, and further ones stand for themselves. Block scalars keep their
line breaks or fold them, and their indentation tells where they end.
-/

namespace SchemaGen.Yaml

/-- The blanks and line breaks between two stretches of a scalar. Of blanks and of line breaks the last
one stands first. -/
structure Gap where
  /-- The blanks, as long as there is no line break. -/
  blanks : List Char
  /-- The first line break. -/
  first : List Char
  /-- The line breaks after the first one. -/
  more : List Char
  /-- Whether a line ends in the gap. -/
  broken : Bool
  deriving Repr

namespace Gap

/-- The gap between stretches that touch. -/
def none : Gap := ⟨[], [], [], false⟩

/-- The gap that starts with a line break which leaves no trace. -/
def joined : Gap := ⟨[], [], [], true⟩

/-- How the gap reads inside the scalar, the last character first. -/
def backwards (g : Gap) : List Char :=
  if g.broken then
    if g.first.head? = some '\n' then (if g.more.isEmpty then [' '] else g.more) else g.more ++ g.first
  else g.blanks

/-- The rest of a gap. After a line break no tab may stand left of the column `floor`. -/
def scan (floor : Nat) : Nat → Gap → Cursor → Option (Gap × Cursor)
  | 0, g, c => some (g, c)
  | fuel + 1, g, c =>
    match c.peek with
    | Option.none => some (g, c)
    | some ch =>
      if isGap ch then
        if g.broken && ch == '\t' && c.column < floor then Option.none
        else scan floor fuel (if g.broken then g else { g with blanks := ch :: g.blanks }) (c.advance 1)
      else if isBreak ch then
        scan floor fuel
          (if g.broken then { g with more := c.breakText ++ g.more }
           else ⟨[], c.breakText, [], true⟩)
          c.newline
      else some (g, c)

end Gap

/-- The marks that structure a flow collection. -/
def isFlowMark (c : Char) : Bool := [',', '[', ']', '{', '}'].contains c

/-- The stretch of a plain scalar up to a blank or to what ends the scalar. In a flow collection a `:`
may not touch the mark after it. -/
def plainStretch (flow : Bool) : List Char → Option (List Char)
  | [] => some []
  | ch :: rest =>
    if isGap ch || isBreak ch then some []
    else if flow && ch == ':' && rest.head?.any (fun n => isFlowMark n || n == '?') then none
    else if (ch == ':' && isEnd rest.head?) || (flow && isFlowMark ch) then some []
    else (plainStretch flow rest).map (ch :: ·)

/-- The rest of a plain scalar after the text before it, of which the last character stands first: the
whole text, whether a line ended before its end was found, and the place after it. -/
def plainFrom (flow : Bool) (floor : Nat) : Nat → List Char → Gap → Cursor → Option (List Char × Bool × Cursor)
  | 0, before, gap, c => some (before.reverse, gap.broken, c)
  | fuel + 1, before, gap, c =>
    if c.isDocumentMark || c.isAt '#' then some (before.reverse, gap.broken, c)
    else do
      let stretch ← plainStretch flow c.rest
      let (before, gap) :=
        if stretch.isEmpty then (before, gap)
        else (stretch.reverse ++ (gap.backwards ++ before), Gap.none)
      let c := c.advance stretch.length
      if c.rest.isEmpty || !isEnd c.peek then some (before.reverse, gap.broken, c)
      else
        let (gap, c) ← Gap.scan floor c.bound gap c
        if !flow && c.column < floor then some (before.reverse, gap.broken, c)
        else plainFrom flow floor fuel before gap c

/-- The plain scalar that starts here. -/
def plainScalar (flow : Bool) (floor : Nat) (c : Cursor) : Option (List Char × Bool × Cursor) :=
  plainFrom flow floor (c.bound + 1) [] Gap.none c

/-- The value of a hexadecimal digit. -/
def hexDigit? (c : Char) : Option Nat :=
  if c.isDigit then some (c.toNat - '0'.toNat)
  else if 'a' ≤ c ∧ c ≤ 'f' then some (c.toNat - 'a'.toNat + 10)
  else if 'A' ≤ c ∧ c ≤ 'F' then some (c.toNat - 'A'.toNat + 10)
  else none

/-- The number that hexadecimal digits denote. -/
def hexNumber? (cs : List Char) : Option Nat :=
  cs.foldlM (fun n c => (hexDigit? c).map fun d => n * 16 + d) 0

/-- The character of a code point, if there is one. -/
def charOf? (n : Nat) : Option Char := if n.isValidChar then some (Char.ofNat n) else none

/-- The character of a code point written with `digits` hexadecimal digits. -/
def hexEscape? (digits : Nat) (cs : List Char) : Option (Char × Nat) :=
  let code := cs.take digits
  if code.length < digits then none
  else do
    let ch ← charOf? (← hexNumber? code)
    return (ch, digits + 2)

/-- The character that an escape stands for, from what follows the backslash, and how many characters
the escape has. -/
def escape? : List Char → Option (Char × Nat)
  | [] => none
  | c :: rest =>
    match c with
    | '0' => some ('\x00', 2)
    | 'a' => some ('\x07', 2)
    | 'b' => some ('\x08', 2)
    | 't' => some ('\t', 2)
    | '\t' => some ('\t', 2)
    | 'n' => some ('\n', 2)
    | 'v' => some ('\x0b', 2)
    | 'f' => some ('\x0c', 2)
    | 'r' => some ('\r', 2)
    | 'e' => some ('\x1b', 2)
    | ' ' => some (' ', 2)
    | '"' => some ('"', 2)
    | '/' => some ('/', 2)
    | '\\' => some ('\\', 2)
    | 'N' => some ('\x85', 2)
    | '_' => some ('\xa0', 2)
    | 'L' => some ('\u2028', 2)
    | 'P' => some ('\u2029', 2)
    | 'x' => hexEscape? 2 rest
    | 'u' => hexEscape? 4 rest
    | 'U' => hexEscape? 8 rest
    | _ => none

/-- The mark around a quoted scalar. -/
def quoteMark (single : Bool) : Char := if single then '\'' else '"'

/-- The text of a quoted scalar up to a blank, the closing mark or an escaped line break, after the text
before it; in both the last character stands first. Also whether the text ended with an escaped line
break, and the place after it. -/
def quotedStretch (single : Bool) : Nat → List Char → Cursor → Option (List Char × Bool × Cursor)
  | 0, before, c => some (before, false, c)
  | fuel + 1, before, c =>
    match c.rest with
    | [] => some (before, false, c)
    | ch :: rest =>
      if isGap ch || isBreak ch then some (before, false, c)
      else if single && ch == '\'' && rest.head? == some '\'' then
        quotedStretch single fuel (ch :: before) (c.advance 2)
      else if ch == quoteMark single then some (before, false, c)
      else if !single && ch == '\\' then
        if rest.head?.any isBreak then some (before, true, (c.advance 1).newline)
        else do
          let (meant, length) ← escape? rest
          quotedStretch single fuel (meant :: before) (c.advance length)
      else quotedStretch single fuel (ch :: before) (c.advance 1)

/-- The text of a quoted scalar, after the text before it, of which the last character stands first, and
the place after the closing mark. -/
def quotedFrom (single : Bool) : Nat → List Char → Cursor → Option (List Char × Cursor)
  | 0, _, _ => none
  | fuel + 1, before, c =>
    if c.isDocumentMark || c.rest.isEmpty then none
    else do
      let (before, joined, c) ← quotedStretch single c.bound before c
      if c.isAt (quoteMark single) then some (before.reverse, c.advance 1)
      else
        let (gap, c) ← Gap.scan 0 c.bound (if joined then Gap.joined else Gap.none) c
        quotedFrom single fuel (gap.backwards ++ before) c

/-- The quoted scalar whose opening mark stands here. -/
def quotedScalar (single : Bool) (c : Cursor) : Option (List Char × Cursor) :=
  quotedFrom single (c.bound + 1) [] (c.advance 1)

/-- What a block scalar does with the line breaks at its end. -/
inductive Chomping where
  | strip | clip | keep
  deriving DecidableEq, Repr

/-- The chomping that a mark asks for. -/
def Chomping.ofMark? (c : Option Char) : Option Chomping :=
  if c == some '+' then some .keep else if c == some '-' then some .strip else none

/-- The width of indentation that a digit gives, and the place after it; zero is refused. -/
def indentWidth (c : Cursor) : Option (Nat × Cursor) :=
  match c.peek with
  | some ch =>
    if ch == '0' then none
    else if ch.isDigit then some (ch.toNat - '0'.toNat, c.advance 1) else some (0, c)
  | none => some (0, c)

/-- The first line of a block scalar: its chomping, the width of its indentation or zero, and the
start of the next line. -/
def blockHeader (c : Cursor) : Option (Chomping × Nat × Cursor) := do
  let (chomping, width, c) ← match Chomping.ofMark? c.peek with
    | some chomping => do
      let (width, c) ← indentWidth (c.advance 1)
      pure (chomping, width, c)
    | none => do
      let (width, c) ← indentWidth c
      match (if width = 0 then none else Chomping.ofMark? c.peek) with
      | some chomping => pure (chomping, width, c.advance 1)
      | none => pure (Chomping.clip, width, c)
  let c := (c.skip isGap).skipComment
  if isLineEnd c.peek then some (chomping, width, c.newline) else none

/-- The empty lines before the next line of a block scalar: their breaks, the last one first, the widest
indentation met, and the place after the next line's indentation. An `indent` of zero is not known
yet. -/
def blankLines (indent : Nat) : Nat → List Char → Nat → Cursor → Option (List Char × Nat × Cursor)
  | 0, breaks, widest, c => some (breaks, widest, c)
  | fuel + 1, breaks, widest, c =>
    let spaces := (c.rest.takeWhile fun ch => ch == ' ').length
    let c := c.advance (if indent = 0 then spaces else min spaces (indent - c.column))
    let widest := max widest c.column
    if (indent = 0 || c.column < indent) && c.isAt '\t' then none
    else if c.peek.any isBreak then blankLines indent fuel (c.breakText ++ breaks) widest c.newline
    else some (breaks, widest, c)

/-- The lines of a block scalar: its text, the last line break and the empty lines after it, each with the
last character first. `blankStart` tells whether the line before starts with a blank, so that it is not
folded. -/
def blockLines (literal : Bool) (indent : Nat) : Nat → List Char → List Char → List Char → Bool → Cursor →
    Option (List Char × List Char × List Char × Cursor)
  | 0, text, last, empty, _, c => some (text, last, empty, c)
  | fuel + 1, text, last, empty, blankStart, c =>
    if c.column == indent && !c.rest.isEmpty then do
      let blankHere := c.peek.any isGap
      let text :=
        if !literal && last.head? == some '\n' && !blankStart && !blankHere then
          (if empty.isEmpty then ' ' :: text else text)
        else last ++ text
      let (line, c) := c.span fun ch => !isBreak ch
      let last := c.breakText
      let text := line.reverse ++ (empty ++ text)
      let (empty, _, c) ← blankLines indent (c.bound + 1) [] 0 c.newline
      blockLines literal indent fuel text last empty blankHere c
    else some (text, last, empty, c)

/-- The block scalar after its mark, inside a block with the indentation `outer`, which is -1 outside
of every block. -/
def blockScalar (literal : Bool) (outer : Int) (c : Cursor) : Option (List Char × Cursor) := do
  let (chomping, width, c) ← blockHeader c
  let known := if width = 0 then 0 else (max outer 0).toNat + width
  let (empty, widest, c) ← blankLines known (c.bound + 1) [] 0 c
  let indent := if known = 0 then max (max widest (outer + 1).toNat) 1 else known
  let (text, last, empty, c) ← blockLines literal indent (c.bound + 1) [] [] empty false c
  let ending := match chomping with
    | .strip => []
    | .clip => last
    | .keep => empty ++ last
  return ((ending ++ text).reverse, c)

end SchemaGen.Yaml
