/-!
# Tags

A tag is a row of bytes that names the type of a node. Its escapes may write bytes that make up no
text, so that a tag of the source's own has a name only where its bytes are text. No tag goes on past a
zero byte.
-/

namespace SchemaGen.Yaml

/-- The bytes of characters. -/
def utf8 (cs : List Char) : List UInt8 := cs.flatMap String.utf8EncodeChar

/-- The bytes that name a type. -/
structure Tag where
  bytes : List UInt8
  deriving DecidableEq, Repr

namespace Tag

/-- The tag that a text spells. -/
def ofText (s : String) : Tag := ⟨utf8 s.toList⟩

/-- The tag of bytes as far as the first zero byte. -/
def cut (bytes : List UInt8) : Tag := ⟨bytes.takeWhile (· != 0)⟩

/-- A tag that goes on with another one. -/
def append (a b : Tag) : Tag := ⟨a.bytes ++ b.bytes⟩

/-- The mark that starts the tags of the source's own, which is itself one of them. -/
def mark : Tag := ofText "!"

/-- A tag of the core schema. -/
def core (name : String) : Tag := (ofText "tag:yaml.org,2002:").append (ofText name)

/-- Whether a tag is one of the source's own. -/
def isOwn (t : Tag) : Bool := mark.bytes.isPrefixOf t.bytes

/-- The bytes without a mark at their start, but the mark alone as it is. -/
def withoutMark (bytes : List UInt8) : List UInt8 :=
  let rest := bytes.drop mark.bytes.length
  if mark.bytes.isPrefixOf bytes && !rest.isEmpty then rest else bytes

/-- The text of bytes, if they are one. -/
def text? (bytes : List UInt8) : Option String := String.fromUTF8? (ByteArray.mk bytes.toArray)

/-- The name of a tag of the source's own: its text without up to two marks at its start, of which at
least one is kept where nothing follows. -/
def ownName? (t : Tag) : Option String :=
  if t.isOwn then text? (withoutMark (withoutMark t.bytes)) else none

example : (ofText "!<").isOwn = true ∧ (core "int").isOwn = false := by decide
example : withoutMark (utf8 ['!', '!', 'x']) = utf8 ['!', 'x'] := by decide
example : withoutMark (utf8 ['!']) = utf8 ['!'] := by decide

end Tag

end SchemaGen.Yaml
