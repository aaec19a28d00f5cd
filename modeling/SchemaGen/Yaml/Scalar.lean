import SchemaGen.Decimal.Notation
import SchemaGen.Yaml.Token

/-!
# The type of a scalar

A plain scalar without a tag is null, a truth value, an integer, a float or a text, whichever its
spelling fits first. A tag of the core schema forces a type, one of the source's own leaves it open, and
any other tag makes a text.
-/

namespace SchemaGen.Yaml

/-- The meaning of a scalar. -/
inductive Atom where
  | null
  | bool (value : Bool)
  | int (value : Int)
  | float (value : Binary64)
  | text (value : String)
  deriving DecidableEq, Repr

namespace Atom

/-- The spellings of null; nothing at all is not among them. -/
def isNullWord (s : String) : Bool := ["null", "Null", "NULL", "~"].contains s

/-- The truth value that a word spells. -/
def bool? (s : String) : Option Bool :=
  if ["true", "True", "TRUE"].contains s then some true
  else if ["false", "False", "FALSE"].contains s then some false
  else none

/-- Digits after a leading zero, which make a text and no number. -/
def hasLeadingZero (cs : List Char) : Bool :=
  match (Decimal.sign cs).2 with
  | '0' :: d :: rest => (d :: rest).all Char.isDigit
  | _ => false

/-- The natural in a notation with a base mark: `0x1F`, `0o17`, `0b101`. -/
def based? : List Char → Option Nat
  | '0' :: 'x' :: rest => Decimal.natural? 16 rest
  | '0' :: 'o' :: rest => Decimal.natural? 8 rest
  | '0' :: 'b' :: rest => Decimal.natural? 2 rest
  | _ => none

/-- The integer of any size that a scalar spells. -/
def integer? (cs : List Char) : Option Int :=
  let (negative, rest) := Decimal.sign cs
  let size := match based? rest with
    | some n => some n
    | none => if hasLeadingZero cs then none else Decimal.natural? 10 rest
  size.map fun n => if negative then -(n : Int) else n

/-- The float that a scalar spells, if it is finite or one of the special words. -/
def float? (s : String) : Option Binary64 :=
  let cs := s.toList
  let unsigned := if cs.head? == some '+' then cs.drop 1 else cs
  if cs.head? == some '+' && unsigned.head?.any (fun c => c == '+' || c == '-') then none
  else if [".inf", ".Inf", ".INF"].contains (String.ofList unsigned) then some (.infinite false)
  else if ["-.inf", "-.Inf", "-.INF"].contains s then some (.infinite true)
  else if [".nan", ".NaN", ".NAN"].contains s then some .nan
  else match Decimal.number? unsigned with
    | some (.finite negative m e) => some (.finite negative m e)
    | _ => none

/-- The integer of up to 128 bits that a scalar spells. -/
def wideInteger? (cs : List Char) : Option Int := (integer? cs).filter (Decimal.fitsWord 128)

/-- The meaning of a plain scalar without a tag. Integers that fit a word of 64 bits are numbers, other
ones up to 128 bits are refused, and still larger ones are no integers. -/
def ofPlain? (s : String) : Option Atom :=
  if s.isEmpty || isNullWord s then some .null
  else match bool? s with
    | some b => some (.bool b)
    | none =>
      match wideInteger? s.toList with
      | some i => if Decimal.fitsWord 64 i then some (.int i) else none
      | none =>
        if hasLeadingZero s.toList then some (.text s)
        else match float? s with
          | some x => some (.float x)
          | none => some (.text s)

/-- The meaning of a scalar under a tag of the core schema; none if the scalar does not fit. -/
def ofTagged? (tag : Tag) (style : Style) (s : String) : Option Atom :=
  if tag == .core "bool" then (bool? s).map .bool
  else if tag == .core "int" then
    match integer? s.toList with
    | some i => if Decimal.fitsWord 64 i then some (.int i) else none
    | none => none
  else if tag == .core "float" then (float? s).map .float
  else if tag == .core "null" then if isNullWord s then some .null else none
  else if tag.isOwn && style == .plain then ofPlain? s
  else some (.text s)

/-- The meaning of a scalar. -/
def ofScalar? (tag : Option Tag) (style : Style) (s : String) : Option Atom :=
  match tag with
  | some tag => ofTagged? tag style s
  | none => if style == .plain then ofPlain? s else some (.text s)

/-- Whether two scalars count as one key. -/
def same : Atom → Atom → Bool
  | .float x, .float y => x.same y
  | a, b => a == b

example : integer? "-0x1f".toList = some (-31) := by decide
example : hasLeadingZero "007".toList = true := by decide

end Atom

end SchemaGen.Yaml
