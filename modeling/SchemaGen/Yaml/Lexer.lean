import SchemaGen.Yaml.Folding

/-!
# From a source to tokens

A block collection opens where a member is indented further than the collection around it, and closes
where a line is indented less. A scalar, an anchor, a tag or a flow collection may turn out to be a
key when a `:` follows; until then its place among the tokens is remembered. Such a key lies in one
line and within 1024 bytes.
-/

namespace SchemaGen.Yaml

/-- The tokens that were read, of which the last one stands first, and their number. -/
structure TokenStack where
  list : List Token
  size : Nat
  size_eq : size = list.length

namespace TokenStack

/-- No tokens. -/
def empty : TokenStack := ⟨[], 0, rfl⟩

/-- The tokens in their order. -/
def toList (s : TokenStack) : List Token := s.list.reverse

/-- Adds a token at the end. -/
def push (s : TokenStack) (t : Token) : TokenStack := ⟨t :: s.list, s.size + 1, by simp [s.size_eq]⟩

/-- Puts a token at a place, before those that stand from there on. -/
def insertAt (s : TokenStack) (place : Nat) (t : Token) : TokenStack :=
  ⟨s.list.take (s.size - place) ++ t :: s.list.drop (s.size - place), s.size + 1, by
    simp only [List.length_append, List.length_cons, List.length_take, List.length_drop, s.size_eq]
    omega⟩

end TokenStack

/-- What may turn out to be a key. -/
structure PendingKey where
  /-- Where its tokens start among the tokens. -/
  place : Nat
  /-- Whether the source is refused unless it is a key. -/
  required : Bool
  index : Nat
  line : Nat
  column : Nat
  deriving Repr

/-- The state of the walk over a source. -/
structure Lexer where
  cursor : Cursor
  /-- The tokens so far. -/
  tokens : TokenStack
  /-- The columns of the open block collections, innermost first. -/
  columns : List Nat
  /-- What may be a key in each open flow collection, innermost first, and last outside of them. -/
  pending : List (Option PendingKey)
  /-- Whether a key may start here. -/
  keyAllowed : Bool

namespace Lexer

/-- The start of a source. -/
def start (source : List Char) : Lexer := ⟨Cursor.start source, .empty, [], [none], true⟩

/-- Whether the place lies in a flow collection. -/
def inFlow (l : Lexer) : Bool := !(l.pending.drop 1).isEmpty

/-- The column of the innermost block collection, -1 outside of all. -/
def indent (l : Lexer) : Int :=
  match l.columns with
  | [] => -1
  | column :: _ => column

/-- The column that a member of a collection inside the innermost one must reach. -/
def floor (l : Lexer) : Nat := (l.indent + 1).toNat

/-- Adds a token. -/
def emit (l : Lexer) (t : Token) : Lexer := { l with tokens := l.tokens.push t }

/-- Adds a token that ends `n` characters on. -/
def take (l : Lexer) (n : Nat) (t : Token) : Lexer :=
  { l with tokens := l.tokens.push t, cursor := l.cursor.advance n }

/-- Says whether a key may start after this. -/
def allowKey (l : Lexer) (allowed : Bool) : Lexer := { l with keyAllowed := allowed }

/-- Whether what is pending can no longer be a key. -/
def isStale (c : Cursor) (k : PendingKey) : Bool := k.line < c.line || k.index + 1024 < c.index

/-- Gives up the pending keys that lie too far back; none of them may be required. -/
def dropStale (l : Lexer) : Option Lexer :=
  if l.pending.any fun k => k.any (isStale l.cursor) then
    if l.pending.any fun k => k.any fun key => isStale l.cursor key && key.required then none
    else some { l with pending := l.pending.map fun k => k.filter fun key => !isStale l.cursor key }
  else some l

/-- Gives up the innermost pending key, which may not be required. -/
def dropPending (l : Lexer) : Option Lexer :=
  match l.pending with
  | some key :: rest => if key.required then none else some { l with pending := none :: rest }
  | _ => some l

/-- Remembers that a key may start here. -/
def savePending (l : Lexer) : Option Lexer :=
  if l.keyAllowed then do
    let c := l.cursor
    let key : PendingKey :=
      ⟨l.tokens.size, !l.inFlow && l.indent == (c.column : Int), c.index, c.line, c.column⟩
    let l ← l.dropPending
    return { l with pending := some key :: l.pending.drop 1 }
  else some l

/-- Opens a block collection at a place among the tokens if the column calls for one. -/
def openBlock (l : Lexer) (column place : Nat) (t : Token) : Lexer :=
  if l.inFlow || (column : Int) ≤ l.indent then l
  else { l with columns := column :: l.columns, tokens := l.tokens.insertAt place t }

/-- Opens a block collection here if the column calls for one. -/
def openHere (l : Lexer) (t : Token) : Lexer := l.openBlock l.cursor.column l.tokens.size t

/-- Closes the block collections that stand right of a column. -/
def closeBlocks (l : Lexer) (column : Int) : Lexer :=
  if l.inFlow then l
  else
    let closed := l.columns.takeWhile fun (c : Nat) => column < (c : Int)
    { l with
      columns := l.columns.drop closed.length
      tokens := closed.foldl (fun tokens _ => tokens.push .blockEnd) l.tokens }

/-- The place of the next token, past blanks, comments, line breaks and a byte order mark at the start of
a line. A tab is a blank only where no key may start. -/
def toNext : Nat → Lexer → Lexer
  | 0, l => l
  | fuel + 1, l =>
    let c := if l.cursor.column == 0 && l.cursor.isAt '\ufeff' then l.cursor.advance 1 else l.cursor
    let c := c.skip fun ch => ch == ' ' || ((l.inFlow || !l.keyAllowed) && ch == '\t')
    let c := c.skipComment
    if c.peek.any isBreak then
      toNext fuel { l with cursor := c.newline, keyAllowed := l.keyAllowed || !l.inFlow }
    else { l with cursor := c }

/-- The handle of a tag or of a directive. A directive takes no handle that lacks its closing mark. -/
def handle (directive : Bool) (c : Cursor) : Option (List Char × Cursor) :=
  if c.isAt '!' then
    let (word, after) := (c.advance 1).span isWord
    if after.isAt '!' then some ('!' :: word ++ ['!'], after.advance 1)
    else if directive && !word.isEmpty then none
    else some ('!' :: word, after)
  else none

/-- The characters of a tag; between angle brackets commas and brackets are among them. -/
def isTagChar (verbatim : Bool) (c : Char) : Bool :=
  isWord c ||
    [';', '/', '?', ':', '@', '&', '=', '+', '$', '.', '%', '!', '~', '*', '\'', '(', ')'].contains c ||
    (verbatim && [',', '[', ']'].contains c)

/-- The bytes written as `%` and two hexadecimal digits, as many as there are. -/
def percentBytes : List Char → List UInt8
  | '%' :: a :: b :: rest =>
    match hexDigit? a, hexDigit? b with
    | some x, some y => UInt8.ofNat (x * 16 + y) :: percentBytes rest
    | _, _ => []
  | _ => []

/-- How many bytes a character has, by its first byte. -/
def encodedLength? (byte : UInt8) : Option Nat :=
  if byte < 0x80 then some 1
  else if byte / 0x20 = 6 then some 2
  else if byte / 0x10 = 14 then some 3
  else if byte / 0x08 = 30 then some 4
  else none

/-- The bytes of one character written with `%` escapes, which need not be one that exists. -/
def percentChar? (cs : List Char) : Option (List UInt8) := do
  let bytes := percentBytes (cs.take 12)
  let length ← encodedLength? (← bytes.head?)
  let bytes := bytes.take length
  if bytes.length = length && (bytes.drop 1).all fun b => b / 0x40 == 2 then some bytes else none

/-- The bytes of a tag up to its end, after those read before, of which the last one stands first. -/
def tagBytes (verbatim : Bool) : Nat → List UInt8 → Cursor → Option (List UInt8 × Cursor)
  | 0, bytes, c => some (bytes.reverse, c)
  | fuel + 1, bytes, c =>
    match c.peek with
    | some ch =>
      if ch == '%' then do
        let meant ← percentChar? c.rest
        tagBytes verbatim fuel (meant.reverse ++ bytes) (c.advance (3 * meant.length))
      else if isTagChar verbatim ch then tagBytes verbatim fuel ((utf8 [ch]).reverse ++ bytes) (c.advance 1)
      else some (bytes.reverse, c)
    | none => some (bytes.reverse, c)

/-- The bytes of a tag, of which there must be one at least. -/
def someTagBytes (verbatim : Bool) (c : Cursor) : Option (List UInt8 × Cursor) := do
  let (bytes, after) ← tagBytes verbatim c.bound [] c
  if bytes.isEmpty then none else some (bytes, after)

/-- The tag that starts here: its handle, its suffix, and the place after it. -/
def tagAt (inFlow : Bool) (c : Cursor) : Option (String × Tag × Cursor) := do
  let (name, suffix, after) ←
    if c.ahead 1 == some '<' then do
      let (bytes, after) ← someTagBytes true (c.advance 2)
      if after.isAt '>' then some ([], Tag.cut bytes, after.advance 1) else none
    else do
      let (name, after) ← handle false c
      if 2 ≤ name.length && name.getLast? == some '!' then do
        let (bytes, after) ← someTagBytes false after
        some (name, Tag.cut bytes, after)
      else do
        let (bytes, after) ← tagBytes false after.bound (utf8 (name.drop 1)).reverse after
        let suffix := Tag.cut bytes
        some (if suffix.bytes.isEmpty then ([], Tag.mark, after) else (['!'], suffix, after))
  if isEnd after.peek || (inFlow && after.isAt ',') then some (String.ofList name, suffix, after)
  else none

/-- The name of an anchor or alias, and the place after it. -/
def anchorName (c : Cursor) : Option (String × Cursor) :=
  let (name, after) := c.span isWord
  let closed := after.peek.all fun ch =>
    isGap ch || isBreak ch || ['?', ':', ',', ']', '}', '%', '@', '`'].contains ch
  if name.isEmpty || !closed then none else some (String.ofList name, after)

/-- A number of a version, of at most nine digits. -/
def versionNumber (c : Cursor) : Option (Nat × Cursor) :=
  let (digits, after) := c.span Char.isDigit
  if digits.isEmpty || 9 < digits.length then none
  else some (digits.foldl (fun n d => n * 10 + (d.toNat - '0'.toNat)) 0, after)

/-- The directive that starts here, and the start of the next line. -/
def directiveAt (c : Cursor) : Option (Token × Cursor) := do
  let (name, after) := (c.advance 1).span isWord
  if name.isEmpty || !isEnd after.peek then none
  else
    let after := after.skip isGap
    let (t, after) ←
      if name == "YAML".toList then do
        let (major, after) ← versionNumber after
        if after.isAt '.' then do
          let (minor, after) ← versionNumber (after.advance 1)
          some (Token.version major minor, after)
        else none
      else if name == "TAG".toList then do
        let (name, after) ← handle true after
        if after.peek.any isGap then do
          let (bytes, after) ← someTagBytes true (after.skip isGap)
          if isEnd after.peek then some (Token.handle (String.ofList name) (Tag.cut bytes), after)
          else none
        else none
      else none
    let after := (after.skip isGap).skipComment
    if isLineEnd after.peek then some (t, after.newline) else none

/-- Reads a directive. -/
def directive (l : Lexer) : Option Lexer := do
  let l ← (l.closeBlocks (-1)).dropPending
  let (t, after) ← directiveAt l.cursor
  return { (l.allowKey false).emit t with cursor := after }

/-- Reads the mark that starts or ends a document. -/
def documentMark (l : Lexer) (t : Token) : Option Lexer := do
  let l ← (l.closeBlocks (-1)).dropPending
  return (l.allowKey false).take 3 t

/-- Reads the mark that opens a flow collection. -/
def openFlow (l : Lexer) (t : Token) : Option Lexer := do
  let l ← l.savePending
  return ({ l with pending := none :: l.pending }.allowKey true).take 1 t

/-- Reads the mark that closes a flow collection. -/
def closeFlow (l : Lexer) (t : Token) : Option Lexer := do
  let l ← l.dropPending
  let l := if l.inFlow then { l with pending := l.pending.drop 1 } else l
  return (l.allowKey false).take 1 t

/-- Reads a comma between members of a flow collection. -/
def flowComma (l : Lexer) : Option Lexer := do
  let l ← l.dropPending
  return (l.allowKey true).take 1 .comma

/-- Reads the dash before a member of a block sequence. -/
def blockDash (l : Lexer) : Option Lexer := do
  if !l.inFlow && !l.keyAllowed then none
  else
    let l ← (l.openHere .blockSequence).dropPending
    return (l.allowKey true).take 1 .dash

/-- Reads the `?` before a key. -/
def explicitKey (l : Lexer) : Option Lexer := do
  if !l.inFlow && !l.keyAllowed then none
  else
    let l ← (l.openHere .blockMapping).dropPending
    return (l.allowKey !l.inFlow).take 1 .key

/-- Reads the `:` before a value; what is pending turns out to be the key. -/
def valueMark (l : Lexer) : Option Lexer :=
  match l.pending with
  | some key :: rest =>
    let l := { l with pending := none :: rest, tokens := l.tokens.insertAt key.place .key }
    some (((l.openBlock key.column key.place .blockMapping).allowKey false).take 1 .value)
  | _ =>
    if !l.inFlow && !l.keyAllowed then none
    else some (((l.openHere .blockMapping).allowKey !l.inFlow).take 1 .value)

/-- Reads an anchor or an alias. -/
def anchored (l : Lexer) (t : String → Token) : Option Lexer := do
  let l ← l.savePending
  let (name, after) ← anchorName (l.cursor.advance 1)
  return { (l.allowKey false).emit (t name) with cursor := after }

/-- Reads a tag. -/
def tagged (l : Lexer) : Option Lexer := do
  let l ← l.savePending
  let (name, suffix, after) ← tagAt l.inFlow l.cursor
  return { (l.allowKey false).emit (.tag name suffix) with cursor := after }

/-- Reads a block scalar. -/
def block (l : Lexer) (literal : Bool) : Option Lexer := do
  let l ← l.dropPending
  let (text, after) ← blockScalar literal l.indent (l.cursor.advance 1)
  let t := Token.scalar (if literal then .literal else .folded) (String.ofList text)
  return { (l.allowKey true).emit t with cursor := after }

/-- Reads a quoted scalar. -/
def quoted (l : Lexer) (single : Bool) : Option Lexer := do
  let l ← l.savePending
  let (text, after) ← quotedScalar single l.cursor
  let t := Token.scalar (if single then .single else .double) (String.ofList text)
  return { (l.allowKey false).emit t with cursor := after }

/-- Reads a plain scalar; a key may start after it if it was followed by a line break. -/
def plain (l : Lexer) : Option Lexer := do
  let l ← l.savePending
  let (text, broken, after) ← plainScalar l.inFlow l.floor l.cursor
  return { (l.allowKey broken).emit (.scalar .plain (String.ofList text)) with cursor := after }

/-- The marks that a plain scalar cannot start with. -/
def cannotStartPlain : List Char :=
  ['-', '?', ':', ',', '[', ']', '{', '}', '#', '&', '*', '!', '|', '>', '\'', '"', '%', '@', '`']

/-- Whether a plain scalar starts here: at no blank, at a dash, `?` or `:` only if something touches it,
and at the last two only outside of flow collections. -/
def startsPlain (l : Lexer) (ch : Char) : Bool :=
  (!isEnd (some ch) && !cannotStartPlain.contains ch) ||
    (ch == '-' && !(l.cursor.ahead 1).any isGap) ||
    (!l.inFlow && (ch == '?' || ch == ':') && !isEnd (l.cursor.ahead 1))

/-- Reads the next token, which starts with `ch`. -/
def token (l : Lexer) (ch : Char) : Option Lexer :=
  let alone := isEnd (l.cursor.ahead 1)
  if l.cursor.column == 0 && ch == '%' then l.directive
  else if l.cursor.isMarker '-' then l.documentMark .documentStart
  else if l.cursor.isMarker '.' then l.documentMark .documentEnd
  else if ch == '[' then l.openFlow .flowSequence
  else if ch == '{' then l.openFlow .flowMapping
  else if ch == ']' then l.closeFlow .flowSequenceEnd
  else if ch == '}' then l.closeFlow .flowMappingEnd
  else if ch == ',' then l.flowComma
  else if ch == '-' && alone then l.blockDash
  else if ch == '?' && (l.inFlow || alone) then l.explicitKey
  else if ch == ':' && (l.inFlow || alone) then l.valueMark
  else if ch == '*' then l.anchored .alias
  else if ch == '&' then l.anchored .anchor
  else if ch == '!' then l.tagged
  else if ch == '|' && !l.inFlow then l.block true
  else if ch == '>' && !l.inFlow then l.block false
  else if ch == '\'' then l.quoted true
  else if ch == '"' then l.quoted false
  else if l.startsPlain ch then l.plain
  else none

/-- Ends the source. -/
def finish (l : Lexer) : Option Lexer := (l.closeBlocks (-1)).dropPending

/-- Reads tokens up to the end of the source; `fuel` exceeds what is left of it. -/
def run : Nat → Lexer → Option (List Token)
  | 0, _ => none
  | fuel + 1, l => do
    let l := toNext (l.cursor.bound + 1) l
    let l ← l.dropStale
    let l := l.closeBlocks l.cursor.column
    match l.cursor.peek with
    | none => l.finish.map fun l => l.tokens.toList
    | some ch => run fuel (← l.token ch)

end Lexer

/-- The tokens of a source; none if a character is not allowed or begins no token. -/
def tokens? (source : String) : Option (List Token) :=
  let cs := source.toList
  if cs.all isAllowed then Lexer.run (cs.length + 2) (Lexer.start cs) else none

end SchemaGen.Yaml
