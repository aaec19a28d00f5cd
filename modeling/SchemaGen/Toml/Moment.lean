import SchemaGen.Calendar
import SchemaGen.Decimal.Notation

/-!
# Moments

A date, a time of day, or both with or without an offset from universal time, and the usual spelling of
each. A moment is written as a value of its own or as the text of an entry, and the second way grants
more: a day's last hour may be the 24th, and an offset may have any digits that come to a day at most.
-/

namespace SchemaGen.Toml

/-- What a moment may be made of. -/
structure MomentLimits where
  /-- The last hour of a day. -/
  hour : Nat
  /-- The most hours of an offset. -/
  offsetHour : Nat
  /-- The most minutes of an offset besides its hours. -/
  offsetMinute : Nat
  deriving DecidableEq, Repr

namespace MomentLimits

/-- The limits of a moment that is a value of its own. -/
def ofValue : MomentLimits := ⟨23, 23, 59⟩

/-- The limits of a moment in the text of an entry. -/
def ofText : MomentLimits := ⟨24, 99, 99⟩

end MomentLimits

/-- A number between two bounds. -/
def within? (low high : Nat) (digits : List Char) : Option Nat := do
  let n ← Decimal.natural? 10 digits
  if low ≤ n ∧ n ≤ high then some n else none

/-- Whether these characters are a date of the calendar. -/
def isDate : List Char → Bool
  | [y₁, y₂, y₃, y₄, '-', m₁, m₂, '-', d₁, d₂] =>
    match within? 0 9999 [y₁, y₂, y₃, y₄], within? 1 12 [m₁, m₂] with
    | some year, some month => (within? 1 (Calendar.daysIn year month) [d₁, d₂]).isSome
    | _, _ => false
  | _ => false

/-- A fraction of a second: up to nine places count, and zeros at the end do not. -/
def secondFraction? : List Char → Option (List Char × List Char)
  | '.' :: rest =>
    let digits := rest.takeWhile Char.isDigit
    let kept := ((digits.take 9).reverse.dropWhile (· == '0')).reverse
    if digits.isEmpty then none
    else some (if kept.isEmpty then [] else '.' :: kept, rest.dropWhile Char.isDigit)
  | rest => some ([], rest)

/-- A time of day, and what follows it; the last second of a minute may be the leap second. -/
def timeOfDay? (limits : MomentLimits) : List Char → Option (List Char × List Char)
  | h₁ :: h₂ :: ':' :: m₁ :: m₂ :: ':' :: s₁ :: s₂ :: rest => do
    let _ ← within? 0 limits.hour [h₁, h₂]
    let _ ← within? 0 59 [m₁, m₂]
    let _ ← within? 0 60 [s₁, s₂]
    let (fraction, rest) ← secondFraction? rest
    return ([h₁, h₂, ':', m₁, m₂, ':', s₁, s₂] ++ fraction, rest)
  | _ => none

/-- The minutes of a day, which no offset exceeds. -/
def minutesOfDay : Nat := 24 * 60

/-- The offset from universal time at the end of a time; there may be none. An offset of nothing is
written with a plus. -/
def offset? (limits : MomentLimits) : List Char → Option (List Char)
  | [] => some []
  | [c] => if c = 'Z' ∨ c = 'z' then some ['Z'] else none
  | [sign, h₁, h₂, ':', m₁, m₂] => do
    let hours ← within? 0 limits.offsetHour [h₁, h₂]
    let minutes ← within? 0 limits.offsetMinute [m₁, m₂]
    let total := hours * 60 + minutes
    if (sign = '+' ∨ sign = '-') ∧ total ≤ minutesOfDay then
      return (if total = 0 then '+' else sign) ::
        (Calendar.padded 2 (total / 60) ++ ":" ++ Calendar.padded 2 (total % 60)).toList
    else none
  | _ => none

/-- A time of day with its offset. -/
def offsetTime? (limits : MomentLimits) (cs : List Char) : Option (List Char) := do
  let (time, rest) ← timeOfDay? limits cs
  return time ++ (← offset? limits rest)

/-- A date, a time of day without offset, or a date and a time, in its usual spelling. -/
def moment? (limits : MomentLimits) (cs : List Char) : Option (List Char) :=
  if isDate (cs.take 10) then
    match cs.drop 10 with
    | [] => some (cs.take 10)
    | c :: rest =>
      if c = 'T' ∨ c = 't' ∨ c = ' ' then
        (offsetTime? limits rest).map (cs.take 10 ++ 'T' :: ·)
      else none
  else match timeOfDay? limits cs with
    | some (time, []) => some time
    | _ => none

example : moment? .ofValue "1979-05-27 07:32:00.500z".toList =
    some "1979-05-27T07:32:00.5Z".toList := by decide
example : moment? .ofValue "1979-02-29".toList = none := by decide
example : moment? .ofText "1979-05-27t24:00:00-00:75".toList =
    some "1979-05-27T24:00:00-01:15".toList := by decide

end SchemaGen.Toml
