import SchemaGen.Yaml.Cursor
import SchemaGen.Yaml.Tag

/-!
# Tokens

The marks of a source. Those that open a block collection are worked out from the indentation; a key
that is not written with `?` is recognised only by the `:` after it. The end of the list is the end of
the source.
-/

namespace SchemaGen.Yaml

/-- How a scalar is written. -/
inductive Style where
  | plain | single | double | literal | folded
  deriving DecidableEq, Repr

/-- A mark of the source. -/
inductive Token where
  /-- The version that a directive asks for. -/
  | version (major minor : Nat)
  /-- What a handle stands for, by a directive. -/
  | handle (name : String) (expansion : Tag)
  | documentStart
  | documentEnd
  | blockSequence
  | blockMapping
  | blockEnd
  | flowSequence
  | flowSequenceEnd
  | flowMapping
  | flowMappingEnd
  /-- The comma between members of a flow collection. -/
  | comma
  /-- The dash before a member of a block sequence. -/
  | dash
  | key
  | value
  | alias (name : String)
  | anchor (name : String)
  | tag (handle : String) (suffix : Tag)
  | scalar (style : Style) (text : String)
  deriving DecidableEq, Repr

end SchemaGen.Yaml
