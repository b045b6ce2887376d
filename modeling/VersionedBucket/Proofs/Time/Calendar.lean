import VersionedBucket.Time.Calendar
import Mathlib.Tactic.IntervalCases

/-! # The calendar undone

Every number of a day has a date that exists in the calendar, and the number of that date is the
number one started from. A day of an era is split as the calendar is: into centuries, into spans of
four years, and into years that begin in March. Dates that exist are told apart by their numbers,
since every such year ends before the next one begins.
-/

namespace VersionedBucket.Time

/-- A day of an era of four hundred years: the centuries, spans of four years and years before it,
and the days in its span. Only a last year of a span has a leap day, and of the last spans of
centuries only the last one of the era. -/
structure EraDay (day century span year ofSpan : Int) : Prop where
  centuryRange : 0 ≤ century ∧ century ≤ 3
  spanRange : 0 ≤ span ∧ span ≤ 24
  yearRange : 0 ≤ year ∧ year ≤ 3
  ofSpanRange : 365 * year ≤ ofSpan ∧ ofSpan ≤ 1460
  ofYear : ofSpan < 365 * (year + 1) ∨ year = 3
  leapDay : 1461 * span + ofSpan ≤ 36523 ∨ century = 3 ∧ span = 24 ∧ ofSpan = 1460
  sum : day = 36524 * century + 1461 * span + ofSpan

theorem exists_eraDay (n : Int) :
    ∃ century span year ofSpan, EraDay (n % 146097) century span year ofSpan := by
  have hlow := Int.emod_nonneg n (show (146097 : Int) ≠ 0 by decide)
  have hhigh := Int.emod_lt_of_pos n (show (0 : Int) < 146097 by decide)
  generalize n % 146097 = day at *
  -- the last day of an era belongs to the fourth century, and that of a span to its fourth year
  obtain ⟨century, hcentury⟩ : ∃ century, century = min (day / 36524) 3 := ⟨_, rfl⟩
  obtain ⟨span, hspan⟩ : ∃ span, span = (day - 36524 * century) / 1461 := ⟨_, rfl⟩
  obtain ⟨ofSpan, hofSpan⟩ : ∃ ofSpan, ofSpan = day - 36524 * century - 1461 * span := ⟨_, rfl⟩
  exact ⟨century, span, min (ofSpan / 365) 3, ofSpan, by constructor <;> omega⟩

namespace EraDay

variable {day century span year ofSpan : Int}

theorem centuries (hday : EraDay day century span year ofSpan) :
    day / 36524 - day / 146096 = century := by
  obtain ⟨_, _, _, _, _, hinside | ⟨rfl, rfl, rfl⟩, rfl⟩ := hday
  · have hcenturies : (36524 * century + 1461 * span + ofSpan) / 36524 = century := by omega
    have heras : (36524 * century + 1461 * span + ofSpan) / 146096 = 0 := by omega
    rw [hcenturies, heras, Int.sub_zero]
  · rfl

/-- Counted as years without leap days, four years are a day longer than they should be. -/
theorem quarters (hday : EraDay day century span year ofSpan) :
    day / 1460 = 25 * century + span + if 24 * century + span + ofSpan < 1460 then 0 else 1 := by
  obtain ⟨_, _, _, _, _, _, _⟩ := hday
  omega

theorem yearOfEra (hday : EraDay day century span year ofSpan) :
    (day - day / 1460 + day / 36524 - day / 146096) / 365 = 100 * century + 4 * span + year := by
  have hcenturies := hday.centuries
  have hquarters := hday.quarters
  obtain ⟨_, _, _, _, hofYear, _, rfl⟩ := hday
  -- all three quotients are known by now, and what they divide is no longer needed
  generalize (36524 * century + 1461 * span + ofSpan) / 1460 = quarters at *
  generalize (36524 * century + 1461 * span + ofSpan) / 36524 = centuries at *
  generalize (36524 * century + 1461 * span + ofSpan) / 146096 = eras at *
  split at hquarters <;> omega

theorem dayOfYear (hday : EraDay day century span year ofSpan) :
    365 * (100 * century + 4 * span + year) + (100 * century + 4 * span + year) / 4 -
      (100 * century + 4 * span + year) / 100 = day - (ofSpan - 365 * year) := by
  obtain ⟨_, _, _, _, _, _, _⟩ := hday
  omega

end EraDay

/-! ## Days of a year that begins in March -/

/-- The month of a day. -/
def monthOfDay (dayOfYear : Nat) : Nat :=
  if (5 * dayOfYear + 2) / 153 < 10 then (5 * dayOfYear + 2) / 153 + 3
  else (5 * dayOfYear + 2) / 153 - 9

/-- The number that a day has in its month. -/
def dayOfMonth (dayOfYear : Nat) : Nat :=
  dayOfYear - (153 * ((5 * dayOfYear + 2) / 153) + 2) / 5 + 1

theorem daysInMonth_le (year : Int) (month : Nat) : daysInMonth year month ≤ 31 := by
  unfold daysInMonth
  repeat' split
  all_goals omega

theorem monthOfDay_bounds {dayOfYear : Nat} (hlt : dayOfYear < 366) :
    1 ≤ monthOfDay dayOfYear ∧ monthOfDay dayOfYear ≤ 12 := by
  unfold monthOfDay
  split <;> omega

theorem dayOfMarchYear_monthOfDay {dayOfYear : Nat} (hlt : dayOfYear < 366) :
    Date.dayOfMarchYear (monthOfDay dayOfYear) (dayOfMonth dayOfYear) = dayOfYear := by
  obtain ⟨fromMarch, hfromMarch⟩ : ∃ fromMarch, fromMarch = (5 * dayOfYear + 2) / 153 := ⟨_, rfl⟩
  have hmonth : (monthOfDay dayOfYear + 9) % 12 = fromMarch := by
    unfold monthOfDay
    split <;> omega
  rw [Date.dayOfMarchYear, hmonth, dayOfMonth, ← hfromMarch]
  omega

/-- The day after the twenty-eighth of February needs a leap year. -/
theorem dayOfMonth_le {dayOfYear : Nat} {year : Int} (hlt : dayOfYear < 366)
    (hleap : dayOfYear = 365 → isLeapYear year = true) :
    dayOfMonth dayOfYear ≤ daysInMonth year (monthOfDay dayOfYear) := by
  by_cases hlast : dayOfYear = 365
  · subst hlast
    rw [daysInMonth, hleap rfl]
    decide
  · have hfebruary : 28 ≤ if isLeapYear year then 29 else 28 := by split <;> decide
    unfold daysInMonth dayOfMonth monthOfDay
    generalize (if isLeapYear year then 29 else 28) = february at *
    repeat' split
    all_goals omega

namespace Date

/-- The parts of the date that has a number. -/
theorem ofDays_eq {n century span year ofSpan : Int}
    (hday : EraDay ((n + 719468) % 146097) century span year ofSpan) :
    ofDays n =
      { year := (n + 719468) / 146097 * 400 + (100 * century + 4 * span + year) +
          if monthOfDay (ofSpan - 365 * year).toNat ≤ 2 then 1 else 0
        month := monthOfDay (ofSpan - 365 * year).toNat
        day := dayOfMonth (ofSpan - 365 * year).toNat } := by
  have hofYear : (n + 719468) % 146097 - ((n + 719468) % 146097 - (ofSpan - 365 * year)) =
      ofSpan - 365 * year := Int.sub_sub_self ..
  simp only [ofDays, hday.yearOfEra, hday.dayOfYear, hofYear]
  rfl

theorem toDays_ofDays (n : Int) : (ofDays n).toDays = n := by
  obtain ⟨century, span, year, ofSpan, hday⟩ := exists_eraDay (n + 719468)
  rw [ofDays_eq hday]
  have hdayOfYear := hday.dayOfYear
  obtain ⟨_, _, _, _, _, _, heq⟩ := hday
  have hlt : (ofSpan - 365 * year).toNat < 366 := by omega
  have hback := dayOfMarchYear_monthOfDay hlt
  have hmonth := monthOfDay_bounds hlt
  generalize monthOfDay (ofSpan - 365 * year).toNat = month at *
  -- January and February are counted with the year before, on the way there and on the way back
  have hmarch (y : Int) : (if month ≤ 2 then (y + if month ≤ 2 then 1 else 0) - 1
      else y + if month ≤ 2 then 1 else 0) = y := by
    split
    · exact Int.add_sub_cancel ..
    · exact Int.add_zero y
  have hera (era yearOfEra : Int) (hyear : 0 ≤ yearOfEra ∧ yearOfEra < 400) :
      (era * 400 + yearOfEra) / 400 = era ∧ (era * 400 + yearOfEra) % 400 = yearOfEra := by omega
  obtain ⟨hdiv, hmod⟩ := hera ((n + 719468) / 146097) (100 * century + 4 * span + year) (by omega)
  simp only [toDays, hback, hmarch, hdiv, hmod]
  omega

theorem exists_ofDays (n : Int) : (ofDays n).Exists := by
  obtain ⟨century, span, year, ofSpan, hday⟩ := exists_eraDay (n + 719468)
  rw [ofDays_eq hday]
  obtain ⟨_, _, _, _, _, _, heq⟩ := hday
  have hlt : (ofSpan - 365 * year).toNat < 366 := by omega
  refine ⟨(monthOfDay_bounds hlt).1, (monthOfDay_bounds hlt).2, Nat.le_add_left ..,
    dayOfMonth_le hlt ?_⟩
  intro hlast
  -- only a fourth year has a day 365, and in the last span of a century only the fourth
  -- century has one
  have hmonth : monthOfDay (ofSpan - 365 * year).toNat = 2 := by rw [hlast]; rfl
  simp only [hmonth, isLeapYear, Bool.and_eq_true, Bool.or_eq_true, beq_iff_eq, bne_iff_ne]
  omega

/-! ## Dates by their numbers -/

/-- The year that a date belongs to when years begin in March. -/
def marchYear (d : Date) : Int := if d.month ≤ 2 then d.year - 1 else d.year

/-- The days before a year that begins in March, counted from the start of year 0. -/
def daysBefore (year : Int) : Int :=
  year / 400 * 146097 + (year % 400 * 365 + year % 400 / 4 - year % 400 / 100)

theorem toDays_eq (d : Date) :
    d.toDays = daysBefore d.marchYear + dayOfMarchYear d.month d.day - 719468 := by
  unfold toDays daysBefore marchYear
  dsimp only
  omega

theorem daysBefore_eq (year : Int) :
    daysBefore year = 365 * year + year / 4 - year / 100 + year / 400 := by
  unfold daysBefore
  omega

theorem daysBefore_mono {first second : Int} (hle : first ≤ second) :
    daysBefore first ≤ daysBefore second := by
  rw [daysBefore_eq, daysBefore_eq]
  omega

/-- How many months of a year that begins in March lie before a date. -/
def fromMarch (d : Date) : Nat := (d.month + 9) % 12

/-- The days of a month lie before the first of the next one, as far as the year goes on. -/
theorem day_le {d : Date} (hd : d.Exists) :
    1 ≤ d.day ∧ (153 * d.fromMarch + 2) / 5 + d.day ≤ (153 * d.fromMarch + 155) / 5 := by
  obtain ⟨year, month, day⟩ := d
  obtain ⟨hmonth, hmonth', hday, hday'⟩ := hd
  refine ⟨hday, ?_⟩
  have hfebruary : (if isLeapYear year then 29 else 28) ≤ 29 := by split <;> decide
  simp only [daysInMonth, fromMarch] at *
  generalize (if isLeapYear year then 29 else 28) = february at *
  interval_cases month <;> simp at hday' ⊢ <;> omega

theorem fromMarch_eq {month day : Nat} (hday : 1 ≤ day)
    (hnext : (153 * month + 2) / 5 + day ≤ (153 * month + 155) / 5) :
    (5 * ((153 * month + 2) / 5 + (day - 1)) + 2) / 153 = month := by
  omega

theorem monthOfDay_dayOfMarchYear {d : Date} (hd : d.Exists) :
    monthOfDay (dayOfMarchYear d.month d.day) = d.month := by
  obtain ⟨hday, hnext⟩ := day_le hd
  have hfromMarch := fromMarch_eq hday hnext
  obtain ⟨hmonth, hmonth', -, -⟩ := hd
  unfold monthOfDay dayOfMarchYear
  unfold fromMarch at hfromMarch
  rw [hfromMarch]
  split <;> omega

theorem dayOfMonth_dayOfMarchYear {d : Date} (hd : d.Exists) :
    dayOfMonth (dayOfMarchYear d.month d.day) = d.day := by
  obtain ⟨hday, hnext⟩ := day_le hd
  have hfromMarch := fromMarch_eq hday hnext
  unfold dayOfMonth dayOfMarchYear
  unfold fromMarch at hfromMarch
  rw [hfromMarch]
  omega

/-- Only a leap day is day 365 of its year. -/
theorem dayOfMarchYear_le {d : Date} (hd : d.Exists) : dayOfMarchYear d.month d.day ≤ 364 ∨
    dayOfMarchYear d.month d.day = 365 ∧ d.month = 2 ∧ isLeapYear d.year = true := by
  obtain ⟨_, hnext⟩ := day_le hd
  obtain ⟨hmonth, hmonth', _, hlast⟩ := hd
  unfold fromMarch at hnext
  unfold dayOfMarchYear
  by_cases hfebruary : d.month = 2
  · rw [hfebruary] at hlast ⊢
    rw [daysInMonth, if_pos rfl] at hlast
    split at hlast
    next hleap =>
        rcases Nat.lt_or_eq_of_le hlast with hbefore | hleapDay
        · exact Or.inl (by omega)
        · exact Or.inr ⟨by rw [hleapDay], rfl, hleap⟩
    next => exact Or.inl (by omega)
  · exact Or.inl (by omega)

theorem daysBefore_succ (year : Int) :
    daysBefore (year + 1) = daysBefore year + if isLeapYear (year + 1) then 366 else 365 := by
  have hfourth : (year + 1) / 4 = year / 4 + if (year + 1) % 4 = 0 then 1 else 0 := by
    split <;> omega
  have hcentury : (year + 1) / 100 = year / 100 + if (year + 1) % 100 = 0 then 1 else 0 := by
    split <;> omega
  have hera : (year + 1) / 400 = year / 400 + if (year + 1) % 400 = 0 then 1 else 0 := by
    split <;> omega
  rw [daysBefore_eq, daysBefore_eq, hfourth, hcentury, hera]
  simp only [isLeapYear, Bool.and_eq_true, Bool.or_eq_true, beq_iff_eq, bne_iff_ne]
  split_ifs <;> omega

/-- An existing date lies before the next March. -/
theorem dayOfMarchYear_lt {d : Date} (hd : d.Exists) :
    daysBefore d.marchYear + dayOfMarchYear d.month d.day < daysBefore (d.marchYear + 1) := by
  rw [daysBefore_succ]
  rcases dayOfMarchYear_le hd with hle | ⟨heq, hmonth, hleap⟩
  · split <;> omega
  · have hyear : d.marchYear + 1 = d.year := by
      rw [marchYear, hmonth]
      exact Int.sub_add_cancel ..
    rw [hyear, hleap, heq]
    exact Int.add_lt_add_left (by decide) _

/-- Two dates of different years that begin in March have different numbers. -/
theorem marchYear_le {d d' : Date} (hd' : d'.Exists) (hdays : d.toDays ≤ d'.toDays) :
    d.marchYear ≤ d'.marchYear := by
  by_contra hlt
  have hbefore := daysBefore_mono (show d'.marchYear + 1 ≤ d.marchYear by omega)
  have hend := dayOfMarchYear_lt hd'
  rw [toDays_eq, toDays_eq] at hdays
  omega

theorem toDays_inj {d d' : Date} (hd : d.Exists) (hd' : d'.Exists) (hdays : d.toDays = d'.toDays) :
    d = d' := by
  have hmarch : d.marchYear = d'.marchYear :=
    Int.le_antisymm (marchYear_le hd' (Int.le_of_eq hdays))
      (marchYear_le hd (Int.le_of_eq hdays.symm))
  have hofYear : dayOfMarchYear d.month d.day = dayOfMarchYear d'.month d'.day := by
    rw [toDays_eq, toDays_eq, hmarch] at hdays
    omega
  have hmonth : d.month = d'.month := by
    rw [← monthOfDay_dayOfMarchYear hd, hofYear, monthOfDay_dayOfMarchYear hd']
  have hday : d.day = d'.day := by
    rw [← dayOfMonth_dayOfMarchYear hd, hofYear, dayOfMonth_dayOfMarchYear hd']
  have hyear : d.year = d'.year := by
    unfold marchYear at hmarch
    rw [hmonth] at hmarch
    split at hmarch <;> omega
  cases d
  cases d'
  exact congr (congr (congrArg Date.mk hyear) hmonth) hday

theorem ofDays_toDays {d : Date} (hd : d.Exists) : ofDays d.toDays = d :=
  toDays_inj (exists_ofDays _) hd (toDays_ofDays _)

/-- The number of the first of January. -/
def newYear (year : Int) : Int := daysBefore (year - 1) + 306 - 719468

theorem newYear_mono {first second : Int} (hle : first ≤ second) : newYear first ≤ newYear second :=
  Int.sub_le_sub_right (Int.add_le_add_right (daysBefore_mono (Int.sub_le_sub_right hle 1)) _) _

/-- A date lies between the first of January of its year and that of the next. -/
theorem toDays_bounds {d : Date} (hd : d.Exists) :
    newYear d.year ≤ d.toDays ∧ d.toDays < newYear (d.year + 1) := by
  obtain ⟨hday, hnext⟩ := day_le hd
  have hofYear := dayOfMarchYear_le hd
  have hsucc := daysBefore_succ (d.year - 1)
  obtain ⟨hmonth, hmonth', -, -⟩ := hd
  rw [toDays_eq, newYear, newYear, Int.add_sub_cancel, marchYear]
  rw [Int.sub_add_cancel] at hsucc
  unfold dayOfMarchYear at *
  unfold fromMarch at hnext
  split
  · split at hsucc <;> omega
  · split at hsucc <;> omega

/-- The dates of the years from -262143 to 262142 are the days between the first and the
last of them. -/
theorem toDays_range {d : Date} (hd : d.Exists) :
    -262143 ≤ d.year ∧ d.year ≤ 262142 ↔ -96465292 ≤ d.toDays ∧ d.toDays ≤ 95026236 := by
  obtain ⟨hlow, hhigh⟩ := toDays_bounds hd
  have hfirst : newYear (-262143) = -96465292 := by decide
  have hlast : newYear 262143 = 95026237 := by decide
  constructor
  · rintro ⟨hlower, hupper⟩
    have hfrom := newYear_mono hlower
    have hto := newYear_mono (show d.year + 1 ≤ 262143 by omega)
    omega
  · rintro ⟨hlower, hupper⟩
    by_contra hrange
    rcases Int.lt_or_le d.year (-262143) with hbefore | hwithin
    · have hto := newYear_mono (Int.add_one_le_of_lt hbefore)
      omega
    · have hfrom := newYear_mono (show 262143 ≤ d.year by omega)
      omega

end Date

end VersionedBucket.Time
