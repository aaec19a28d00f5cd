import SchemaGen.Decimal.Notation
import SchemaGen.Toml.Moment
import SchemaGen.Toml.Text
import SchemaGen.Toml.Value

/-!
# Values without quotes

Truth values, integers of 64 bits, floats and moments. Such a value is a stretch of characters; only
between a date and a time a single space may stand.
-/

namespace SchemaGen.Toml

/-- The characters of values without quotes. -/
def isBareValueChar (c : Char) : Bool :=
  c.isAlphanum || c == '_' || c == '+' || c == '-' || c == '.' || c == ':'

/-- Digits of a base, without the single underscores between them. -/
def grouped? (base : Nat) : List Char → Option (List Char)
  | [] => none
  | [c] => if (Decimal.digit? base c).isSome then some [c] else none
  | c :: '_' :: rest => if (Decimal.digit? base c).isSome then (grouped? base rest).map (c :: ·) else none
  | c :: rest => if (Decimal.digit? base c).isSome then (grouped? base rest).map (c :: ·) else none

/-- The natural that grouped digits denote. -/
def groupedNatural? (base : Nat) (cs : List Char) : Option Nat :=
  (grouped? base cs).bind (Decimal.natural? base)

/-- Decimal digits without a leading zero. -/
def whole? (cs : List Char) : Option (List Char) :=
  if cs.head? = some '0' ∧ cs ≠ ['0'] then none else grouped? 10 cs

/-- A natural with a sign. -/
def signed (negative : Bool) (n : Nat) : Int := if negative then -(n : Int) else n

/-- An integer of any size: decimal with or without a sign, or in another base with its mark. -/
def integer? (cs : List Char) : Option Int :=
  match cs with
  | '0' :: 'x' :: rest => (groupedNatural? 16 rest).map Int.ofNat
  | '0' :: 'o' :: rest => (groupedNatural? 8 rest).map Int.ofNat
  | '0' :: 'b' :: rest => (groupedNatural? 2 rest).map Int.ofNat
  | _ =>
    let (negative, rest) := Decimal.sign cs
    ((whole? rest).bind (Decimal.natural? 10)).map (signed negative)

/-- The digits after a point; without a point there are none. -/
def fraction? : List Char → Option (List Char)
  | [] => some []
  | _ :: rest => grouped? 10 rest

/-- The exponent after its mark; without a mark it is zero. -/
def exponent? : List Char → Option Int
  | [] => some 0
  | _ :: rest =>
    let (negative, rest) := Decimal.sign rest
    (groupedNatural? 10 rest).map (signed negative)

/-- Whether a character marks an exponent. -/
def isExponentMark (c : Char) : Bool := c == 'e' || c == 'E'

/-- A float with a point, an exponent or both. -/
def decimal? (negative : Bool) (cs : List Char) : Option Binary64 := do
  let mantissa := cs.takeWhile fun c => !isExponentMark c
  let exponent := cs.dropWhile fun c => !isExponentMark c
  let fraction := mantissa.dropWhile (· ≠ '.')
  if fraction.isEmpty && exponent.isEmpty then none
  else
    let places ← fraction? fraction
    let digits ← Decimal.natural? 10 ((← whole? (mantissa.takeWhile (· ≠ '.'))) ++ places)
    return .ofDecimal negative digits ((← exponent? exponent) - places.length)

/-- A float; of those too large for the format only the negative ones are one, namely infinity. -/
def float? (cs : List Char) : Option Binary64 :=
  let (negative, rest) := Decimal.sign cs
  if rest = ['i', 'n', 'f'] then some (.infinite negative)
  else if rest = ['n', 'a', 'n'] then some .nan
  else match decimal? negative rest with
    | some (.infinite false) => none
    | x => x

/-- The value that a stretch of characters spells. -/
def bareValue? (cs : List Char) : Option Value :=
  if cs = ['t', 'r', 'u', 'e'] then some (.bool true)
  else if cs = ['f', 'a', 'l', 's', 'e'] then some (.bool false)
  else match moment? .ofValue cs with
    | some time => some (.moment (String.ofList time))
    | none =>
      match float? cs with
      | some x => some (.float x)
      | none =>
        match integer? cs with
        | some i => if Decimal.fitsSigned i then some (.int i) else none
        | none => none

/-- The stretch of a value without quotes. -/
def bareStretch (cs : Source) : List Char × Source :=
  let first := cs.takeWhile isBareValueChar
  let rest := cs.dropWhile isBareValueChar
  match rest with
  | ' ' :: d :: more =>
    if isDate first && d.isDigit then
      (first ++ ' ' :: (d :: more).takeWhile isBareValueChar, (d :: more).dropWhile isBareValueChar)
    else (first, rest)
  | _ => (first, rest)

/-- A value without quotes. -/
def bare? (cs : Source) : Option (Value × Source) :=
  let (stretch, rest) := bareStretch cs
  (bareValue? stretch).map fun v => (v, rest)

example : integer? "-1_000".toList = some (-1000) := by decide
example : integer? "01".toList = none := by decide

end SchemaGen.Toml
