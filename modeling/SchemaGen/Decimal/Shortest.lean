import SchemaGen.Decimal.Binary64

/-!
# Shortest digits

The fewest decimal digits that are read back as the same floating-point number: a number with one
digit is tried first, then one with two, and so on; of two that are read back the nearer one counts.
-/

namespace SchemaGen.Decimal

/-- Digits and the power of ten that they are multiplied by. -/
structure Digits where
  digits : Nat
  exponent : Int
  deriving DecidableEq, Repr

/-- How many decimal digits a natural has; zero has one. -/
def count (n : Nat) : Nat := (Nat.toDigits 10 n).length

/-- Whether `digits · 10 ^ exponent` is read back as `x`. -/
def readsBack (x : Binary64) (digits : Nat) (exponent : Int) : Bool :=
  Binary64.ofDecimal false digits exponent == x

/-- The digits on the grid `10 ^ exponent` next to `num / den` that are read back as `x`, if there are
any. -/
def onGrid? (x : Binary64) (num den : Nat) (exponent : Int) : Option Digits :=
  let (n, d) := scale 10 (-exponent) num den
  let near := nearest n d
  let below := n / d
  let far := if near = below then below + 1 else below
  if readsBack x near exponent then some ⟨near, exponent⟩
  else if readsBack x far exponent then some ⟨far, exponent⟩
  else none

/-- The digits on the coarsest grid that has any, from `10 ^ exponent` on down. -/
def coarsest (x : Binary64) (num den : Nat) : Nat → Int → Digits
  | 0, exponent => ⟨0, exponent⟩
  | fuel + 1, exponent =>
    match onGrid? x num den exponent with
    | some found => found
    | none => coarsest x num den fuel (exponent - 1)

/-- Digits without zeros at the end, which go into the power of ten. -/
def trimZeros : Nat → Digits → Digits
  | 0, d => d
  | fuel + 1, d =>
    if d.digits ≠ 0 ∧ d.digits % 10 = 0 then trimZeros fuel ⟨d.digits / 10, d.exponent + 1⟩ else d

/-- The fewest digits that are read back as the positive number `multiple · 2 ^ exponent`. -/
def shortest (multiple : Nat) (exponent : Int) : Digits :=
  if multiple = 0 then ⟨0, 0⟩
  else
    let (n, d) := scale 2 exponent multiple 1
    let places : Int := if d ≤ n then count (n / d) else 2 - count (d / n)
    let found := coarsest (.finite false multiple exponent) n d 20 places
    trimZeros (count found.digits) found

end SchemaGen.Decimal
