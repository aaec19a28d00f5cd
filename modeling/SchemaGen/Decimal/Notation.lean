import SchemaGen.Decimal.Shortest

/-!
# Decimal notation

How decimal numbers are read, which integers fit words of a number of bits, and the two ways of writing a
floating-point number: scientific for large and small ones, as versions are printed, and always positional, as
settings are printed.
-/

namespace SchemaGen.Decimal

/-- The value of a digit, if the character is one of the base. -/
def digit? (base : Nat) (c : Char) : Option Nat :=
  let value :=
    if c.isDigit then c.toNat - '0'.toNat
    else if 'a' ≤ c ∧ c ≤ 'z' then c.toNat - 'a'.toNat + 10
    else if 'A' ≤ c ∧ c ≤ 'Z' then c.toNat - 'A'.toNat + 10
    else base
  if value < base then some value else none

/-- The natural that digits denote, if there are any and all are of the base. -/
def natural? (base : Nat) (cs : List Char) : Option Nat :=
  if cs.isEmpty then none
  else cs.foldlM (fun n c => (digit? base c).map fun d => n * base + d) 0

/-- The sign that a number starts with, and the rest. -/
def sign : List Char → Bool × List Char
  | '-' :: rest => (true, rest)
  | '+' :: rest => (false, rest)
  | rest => (false, rest)

/-- The integer that a decimal numeral with or without a sign denotes. -/
def integer? (cs : List Char) : Option Int :=
  let (negative, digits) := sign cs
  (natural? 10 digits).map fun n => if negative then -(n : Int) else n

/-- The exponent at the end of a numeral; none is zero. -/
def exponent? : List Char → Option Int
  | [] => some 0
  | c :: rest => if c = 'e' ∨ c = 'E' then integer? rest else none

/-- The number nearest to an unsigned numeral: digits with or without a point, and an exponent or
none. -/
def unsigned? (negative : Bool) (cs : List Char) : Option Binary64 := do
  let whole := cs.takeWhile Char.isDigit
  let rest := cs.dropWhile Char.isDigit
  let (fraction, rest) := match rest with
    | '.' :: more => (more.takeWhile Char.isDigit, more.dropWhile Char.isDigit)
    | _ => ([], rest)
  let digits ← natural? 10 (whole ++ fraction)
  let exponent ← exponent? rest
  return .ofDecimal negative digits (exponent - fraction.length)

/-- The number that a numeral denotes, or the words for infinity and for no number, in any case. -/
def number? (cs : List Char) : Option Binary64 :=
  let (negative, rest) := sign cs
  let word := String.ofList (rest.map Char.toLower)
  if word = "inf" ∨ word = "infinity" then some (.infinite negative)
  else if word = "nan" then some .nan
  else unsigned? negative rest

/-- A count of zeros. -/
def zeros (n : Nat) : String := String.ofList (List.replicate n '0')

/-- Digits with a point before the last `places` of them. -/
def pointed (digits : String) (places : Nat) : String :=
  String.ofList (digits.toList.take (digits.length - places)) ++ "." ++
    String.ofList (digits.toList.drop (digits.length - places))

/-- Digits with a point after the first one, if there are more. -/
def leading (digits : String) : String :=
  if digits.length ≤ 1 then digits else pointed digits (digits.length - 1)

/-- The sign before a number. -/
def signText (negative : Bool) : String := if negative then "-" else ""

/-- Digits written positionally if they have at most 16 places before the point and start within 5
after it, and else with an exponent; a whole number keeps one zero after the point. -/
def scientificDigits (d : Digits) : String :=
  let text := toString d.digits
  let point : Int := text.length + d.exponent
  if 0 ≤ d.exponent ∧ point ≤ 16 then text ++ zeros d.exponent.toNat ++ ".0"
  else if 0 < point ∧ point ≤ 16 then pointed text (-d.exponent).toNat
  else if -5 < point ∧ point ≤ 0 then "0." ++ zeros (-point).toNat ++ text
  else leading text ++ "e" ++ toString (point - 1)

/-- Digits written positionally; a whole number has no point. -/
def positionalDigits (d : Digits) : String :=
  let text := toString d.digits
  let point : Int := text.length + d.exponent
  if 0 ≤ d.exponent then text ++ zeros d.exponent.toNat
  else if 0 < point then pointed text (-d.exponent).toNat
  else "0." ++ zeros (-point).toNat ++ text

/-- The number as versions print it: `1.5`, `1000.0`, `1e21`, `.inf`. -/
def scientific : Binary64 → String
  | .nan => ".nan"
  | .infinite negative => signText negative ++ ".inf"
  | .finite negative 0 _ => signText negative ++ "0.0"
  | .finite negative m e => signText negative ++ scientificDigits (shortest m e)

/-- The number as settings print it: `1.5`, `1000`, `inf`. -/
def positional : Binary64 → String
  | .nan => "NaN"
  | .infinite negative => signText negative ++ "inf"
  | .finite negative 0 _ => signText negative ++ "0"
  | .finite negative m e => signText negative ++ positionalDigits (shortest m e)

/-! ## Words -/

/-- How many values a word of so many bits has. -/
def wordSize (bits : Nat) : Int := (Nat.pow 2 bits : Nat)

/-- The least integer of a signed word of 64 bits. -/
def minSigned : Int := -wordSize 63

/-- The greatest integer of a signed word of 64 bits. -/
def maxSigned : Int := wordSize 63 - 1

/-- Whether an integer fits a signed word of 64 bits. -/
def fitsSigned (i : Int) : Bool := minSigned ≤ i && i ≤ maxSigned

/-- Whether an integer fits a word of so many bits, signed or not. -/
def fitsWord (bits : Nat) (i : Int) : Bool := -wordSize (bits - 1) ≤ i && i < wordSize bits

example : fitsSigned 9223372036854775807 = true ∧ fitsSigned 9223372036854775808 = false := by decide
example : fitsWord 64 18446744073709551615 = true ∧ fitsWord 64 (-9223372036854775809) = false := by decide

end SchemaGen.Decimal
