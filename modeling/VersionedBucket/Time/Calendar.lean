/-! # The Gregorian calendar

Dates of the proleptic Gregorian calendar and their numbers: 1970-01-01 is day 0. Years may be
negative; year 0 exists and is a leap year. Both directions count years from March on, so that the
leap day is the last day of its year.
-/

namespace VersionedBucket.Time

/-- A calendar date; whether it exists is `Date.Exists`. -/
structure Date where
  year : Int
  month : Nat
  day : Nat
  deriving DecidableEq, Repr

/-- Every fourth year is a leap year, of the centuries only every fourth. -/
def isLeapYear (year : Int) : Bool := year % 4 == 0 && (year % 100 != 0 || year % 400 == 0)

def daysInMonth (year : Int) (month : Nat) : Nat :=
  if month = 2 then (if isLeapYear year then 29 else 28)
  else if month = 4 ∨ month = 6 ∨ month = 9 ∨ month = 11 then 30
  else 31

namespace Date

/-- The month and the day are there in the calendar. -/
def Exists (d : Date) : Prop :=
  1 ≤ d.month ∧ d.month ≤ 12 ∧ 1 ≤ d.day ∧ d.day ≤ daysInMonth d.year d.month

instance (d : Date) : Decidable d.Exists := by unfold Exists; infer_instance

/-- The days from the first of March to a date, within a year that starts in March. -/
def dayOfMarchYear (month day : Nat) : Nat := (153 * ((month + 9) % 12) + 2) / 5 + (day - 1)

/-- The number of a date; 1970-01-01 has number 0. -/
def toDays (d : Date) : Int :=
  let year := if d.month ≤ 2 then d.year - 1 else d.year
  let ofEra := year % 400
  year / 400 * 146097 +
    (ofEra * 365 + ofEra / 4 - ofEra / 100 + dayOfMarchYear d.month d.day) - 719468

/-- The date that has a number. -/
def ofDays (n : Int) : Date :=
  let shifted := n + 719468
  let dayOfEra := shifted % 146097
  let yearOfEra := (dayOfEra - dayOfEra / 1460 + dayOfEra / 36524 - dayOfEra / 146096) / 365
  let dayOfYear := (dayOfEra - (365 * yearOfEra + yearOfEra / 4 - yearOfEra / 100)).toNat
  let fromMarch := (5 * dayOfYear + 2) / 153
  let month := if fromMarch < 10 then fromMarch + 3 else fromMarch - 9
  { year := shifted / 146097 * 400 + yearOfEra + (if month ≤ 2 then 1 else 0)
    month
    day := dayOfYear - (153 * fromMarch + 2) / 5 + 1 }

end Date
end VersionedBucket.Time
