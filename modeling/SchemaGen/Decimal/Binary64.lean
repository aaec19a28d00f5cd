/-!
# Binary floating point of 64 bits

A finite number is a whole multiple of a power of two, with at most 53 binary digits. Rounding takes a
quotient of naturals to the nearest such number, a tie to the even multiple, and a quotient beyond the
largest one to infinity.
-/

namespace SchemaGen

/-- A floating-point number; a finite one is `multiple · 2 ^ exponent`. -/
inductive Binary64 where
  | nan
  | infinite (negative : Bool)
  | finite (negative : Bool) (multiple : Nat) (exponent : Int)
  deriving DecidableEq, Repr

/-- The natural nearest to `num / den`; of two, the even one. -/
def nearest (num den : Nat) : Nat :=
  let q := num / den
  let twice := 2 * (num % den)
  if twice < den then q
  else if den < twice then q + 1
  else if q % 2 = 0 then q else q + 1

/-- A quotient `num / den`, multiplied by `base ^ k`, as a numerator and a denominator. -/
def scale (base : Nat) (k : Int) (num den : Nat) : Nat × Nat :=
  if 0 ≤ k then (num * Nat.pow base k.toNat, den) else (num, den * Nat.pow base (-k).toNat)

namespace Binary64

/-- The exponent of the smallest positive number. -/
def minExponent : Int := -1074

/-- The largest exponent of a finite number with 53 binary digits. -/
def maxExponent : Int := 971

/-- The least `k` with `num / den < 2 ^ k`, for a positive quotient. -/
def magnitude (num den : Nat) : Int :=
  let k : Int := num.log2 - den.log2
  let (n, d) := scale 2 (-k) num den
  if n < d then k else k + 1

/-- The number nearest to `num / den`, with that sign. -/
def ofQuotient (negative : Bool) (num den : Nat) : Binary64 :=
  if num = 0 then .finite negative 0 minExponent
  else
    let exponent := max (magnitude num den - 53) minExponent
    let (n, d) := scale 2 (-exponent) num den
    let multiple := nearest n d
    let (multiple, exponent) := if multiple = Nat.pow 2 53 then (Nat.pow 2 52, exponent + 1) else (multiple, exponent)
    if maxExponent < exponent then .infinite negative else .finite negative multiple exponent

/-- The number nearest to `digits · 10 ^ exponent`. Exponents far outside the range of the format are
told apart by the count of digits alone. -/
def ofDecimal (negative : Bool) (digits : Nat) (exponent : Int) : Binary64 :=
  let place := exponent + digits.log2 / 3
  if digits = 0 then .finite negative 0 minExponent
  else if 400 + digits.log2 < place then .infinite negative
  else if place < -400 then .finite negative 0 minExponent
  else
    let (n, d) := scale 10 exponent digits 1
    ofQuotient negative n d

/-- Whether two numbers are equal: the zeros are, and a number that is none equals itself. -/
def same : Binary64 → Binary64 → Bool
  | .finite _ 0 _, .finite _ 0 _ => true
  | a, b => a == b

end Binary64

end SchemaGen
