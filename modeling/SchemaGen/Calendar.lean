/-!
# Calendar

Seconds since the start of 1970 as a date and a time of day in the Gregorian calendar, which is taken
to hold for all years. Dates are worked out in eras of 400 years, each counted from the first of March
of its first year.
-/

namespace SchemaGen.Calendar

/-- A date. -/
structure Date where
  year : Int
  month : Nat
  day : Nat
  deriving DecidableEq, Repr

/-- The date that lies so many days after the first of January 1970. -/
def dateOfDays (days : Int) : Date :=
  let fromMarch := days + 719468
  let era := Int.fdiv fromMarch 146097
  let dayOfEra := (fromMarch - era * 146097).toNat
  let yearOfEra := (dayOfEra - dayOfEra / 1460 + dayOfEra / 36524 - dayOfEra / 146096) / 365
  let dayOfYear := dayOfEra - (365 * yearOfEra + yearOfEra / 4 - yearOfEra / 100)
  let monthFromMarch := (5 * dayOfYear + 2) / 153
  let day := dayOfYear - (153 * monthFromMarch + 2) / 5 + 1
  let month := if monthFromMarch < 10 then monthFromMarch + 3 else monthFromMarch - 9
  let year := era * 400 + yearOfEra + (if month ≤ 2 then 1 else 0)
  ⟨year, month, day⟩

/-- The day that an instant falls on, counted from the first of January 1970. -/
def dayOf (seconds : Int) : Int := Int.fdiv seconds 86400

/-- The seconds since the start of the day. -/
def secondsOfDay (seconds : Int) : Nat := (Int.fmod seconds 86400).toNat

/-- The years that dates may have. -/
def firstYear : Int := -262143

/-- The last such year. -/
def lastYear : Int := 262142

/-- Whether the date of an instant has a year that dates may have. -/
def isInRange (seconds : Int) : Bool :=
  let year := (dateOfDays (dayOf seconds)).year
  firstYear ≤ year && year ≤ lastYear

/-- How many days a month has. -/
def daysIn (year month : Nat) : Nat :=
  if month = 2 then
    if year % 4 = 0 ∧ (year % 100 ≠ 0 ∨ year % 400 = 0) then 29 else 28
  else if month = 4 ∨ month = 6 ∨ month = 9 ∨ month = 11 then 30
  else 31

/-- A number with zeros in front, up to a width. -/
def padded (width n : Nat) : String :=
  let digits := toString n
  String.ofList (List.replicate (width - digits.length) '0') ++ digits

/-- A year: four digits, with a sign if they do not suffice. -/
def yearText (year : Int) : String :=
  if 0 ≤ year ∧ year ≤ 9999 then padded 4 year.toNat
  else (if year < 0 then "-" else "+") ++ padded 4 year.natAbs

/-- An instant as date and time in universal time: `2023-11-14T22:13:20Z`. -/
def timestamp (seconds : Int) : String :=
  let date := dateOfDays (dayOf seconds)
  let time := secondsOfDay seconds
  yearText date.year ++ "-" ++ padded 2 date.month ++ "-" ++ padded 2 date.day ++ "T" ++
    padded 2 (time / 3600) ++ ":" ++ padded 2 (time / 60 % 60) ++ ":" ++ padded 2 (time % 60) ++ "Z"

example : dateOfDays 0 = ⟨1970, 1, 1⟩ := by decide
example : dateOfDays (-1) = ⟨1969, 12, 31⟩ := by decide
example : dateOfDays 11016 = ⟨2000, 2, 29⟩ := by decide

end SchemaGen.Calendar
