import VersionedBucket.Proofs.Time.Calendar
import VersionedBucket.Time.Instant

/-! # Instants on clock and calendar

The regular instants are what clock and calendar can show in the years from -262143 to 262142, each
of them shown once. Second 60 is a leap second in any minute, and a regular instant is shown by it
exactly if it lies within a leap second. A leap second after any other second of a minute is no
regular instant: it is shown as the second that follows.
-/

namespace VersionedBucket.Time

namespace Civil

/-- The time is on the clock. -/
structure OnClock (c : Civil) : Prop where
  hour : c.hour ≤ 23
  minute : c.minute ≤ 59
  second : c.second ≤ 60
  nanos : c.nanos < nanosPerSecond

/-- Clock and calendar can show this in the supported years. -/
structure Possible (c : Civil) : Prop where
  date : c.date.Exists
  year : -262143 ≤ c.date.year ∧ c.date.year ≤ 262142
  clock : c.OnClock

/-- What is written of a clock. -/
def toMillis (c : Civil) : Civil := { c with nanos := c.nanos / 1000000 * 1000000 }

end Civil

namespace Instant

/-- If the instant lies within a leap second, then at the end of a minute. -/
def IsRegular (t : Instant) : Prop := nanosPerSecond ≤ t.nanos → t.seconds % 60 = 59

instance (t : Instant) : Decidable t.IsRegular := by unfold IsRegular; infer_instance

/-- The regular instant that is shown like this one: in the place of a leap second within a minute,
the second that follows. -/
def shown (t : Instant) : Instant :=
  if h : t.IsRegular then t
  else
    { seconds := t.seconds + 1
      nanos := t.nanos - nanosPerSecond
      nanos_lt := Nat.lt_of_le_of_lt (Nat.sub_le ..) t.nanos_lt
      lower := Int.le_trans t.lower (Int.le_of_lt (Int.lt_add_one_of_le (Int.le_refl _)))
      upper := by
        have hupper := t.upper
        unfold IsRegular at h
        omega }

theorem shown_of_isRegular {t : Instant} (ht : t.IsRegular) : t.shown = t := dif_pos ht

theorem shown_of_not_isRegular {t : Instant} (ht : ¬ t.IsRegular) :
    t.shown.seconds = t.seconds + 1 ∧ t.shown.nanos + nanosPerSecond = t.nanos := by
  have hleap : nanosPerSecond ≤ t.nanos := (Classical.not_imp.mp ht).1
  rw [shown, dif_neg ht]
  exact ⟨rfl, Nat.sub_add_cancel hleap⟩

theorem isRegular_of_nanos_lt {t : Instant} (hlt : t.nanos < nanosPerSecond) : t.IsRegular :=
  fun hleap => absurd hleap (Nat.not_le.mpr hlt)

theorem isRegular_shown (t : Instant) : t.shown.IsRegular := by
  by_cases ht : t.IsRegular
  · rwa [shown_of_isRegular ht]
  · have hnanos := (shown_of_not_isRegular ht).2
    have hlt : t.nanos < nanosPerSecond + nanosPerSecond := t.nanos_lt
    exact isRegular_of_nanos_lt (by omega)

theorem shown_eq_self_iff {t : Instant} : t.shown = t ↔ t.IsRegular := by
  constructor
  · intro heq
    rw [← heq]
    exact t.isRegular_shown
  · exact shown_of_isRegular

theorem of?_eq_some (t : Instant) : of? t.seconds t.nanos = some t :=
  dif_pos ⟨t.nanos_lt, t.lower, t.upper⟩

theorem fields_of_of? {seconds : Int} {nanos : Nat} {t : Instant}
    (ht : of? seconds nanos = some t) :
    t.seconds = seconds ∧ t.nanos = nanos := by
  unfold of? at ht
  split at ht
  · cases ht
    exact ⟨rfl, rfl⟩
  · cases ht

theorem civil_date (t : Instant) : t.civil.date = Date.ofDays (t.seconds / 86400) := rfl

theorem civil_hour (t : Instant) : t.civil.hour = (t.seconds % 86400).toNat / 3600 := rfl

theorem civil_minute (t : Instant) : t.civil.minute = (t.seconds % 86400).toNat / 60 % 60 := rfl

theorem civil_second (t : Instant) :
    t.civil.second = (t.seconds % 86400).toNat % 60 + t.nanos / 1000000000 := rfl

/-- Clock and calendar cannot tell a leap second within a minute from the second that follows. -/
theorem civil_shown (t : Instant) : t.shown.civil = t.civil := by
  by_cases ht : t.IsRegular
  · rw [shown_of_isRegular ht]
  · obtain ⟨hseconds, hnanos⟩ := shown_of_not_isRegular ht
    have hwithin : t.seconds % 60 ≠ 59 := (Classical.not_imp.mp ht).2
    have hlt := t.nanos_lt
    have hdays : t.shown.seconds / 86400 = t.seconds / 86400 := by omega
    have hofDay : (t.shown.seconds % 86400).toNat = (t.seconds % 86400).toNat + 1 := by omega
    simp only [nanosPerSecond] at hnanos
    simp only [civil, hdays, hofDay, nanosPerSecond, Civil.mk.injEq, true_and]
    omega

/-- Half a second into a leap second after the fifth second of a minute. -/
def withinMinute : Instant := ⟨5, 1500000000, by decide, by decide, by decide⟩

section Regular

variable {t : Instant} (ht : t.IsRegular)

include ht

/-- Exactly a leap second is shown as second 60. -/
theorem second_civil : t.civil.second = 60 ↔ nanosPerSecond ≤ t.nanos := by
  have hnanos := t.nanos_lt
  unfold IsRegular at ht
  rw [civil_second, nanosPerSecond] at *
  omega

theorem seconds_civil : t.civil.seconds = t.seconds := by
  have hnanos := t.nanos_lt
  have hdays := Date.toDays_ofDays (t.seconds / 86400)
  unfold IsRegular at ht
  rw [Civil.seconds, civil_date, civil_hour, civil_minute, civil_second]
  rw [nanosPerSecond] at ht
  omega

/-- Nanoseconds above one thousand million are shown as the sixtieth second, and counted again. -/
theorem countedNanos_civil : t.civil.countedNanos = t.nanos := by
  have hnanos := t.nanos_lt
  show (if t.civil.second = 60 then t.nanos % 1000000000 + 1000000000
    else t.nanos % 1000000000) = t.nanos
  simp only [second_civil ht, nanosPerSecond]
  split <;> omega

/-- The regular instant that a clock and a calendar show is the one that they show. -/
theorem instant?_civil : t.civil.instant? = some t := by
  have hexists : t.civil.date.Exists := Date.exists_ofDays _
  rw [Civil.instant?, if_pos hexists, seconds_civil ht, countedNanos_civil ht, of?_eq_some]

theorem civil_injective {t' : Instant} (ht' : t'.IsRegular) (hcivil : t.civil = t'.civil) :
    t = t' :=
  Option.some.inj ((instant?_civil ht).symm.trans
    ((congrArg Civil.instant? hcivil).trans (instant?_civil ht')))

end Regular

theorem possible_civil (t : Instant) : t.civil.Possible where
  date := Date.exists_ofDays _
  year := by
    rw [civil_date, Date.toDays_range (Date.exists_ofDays _), Date.toDays_ofDays]
    have hlower := t.lower
    have hupper := t.upper
    omega
  clock := {
    hour := by
      rw [civil_hour]
      omega
    minute := by
      rw [civil_minute]
      omega
    second := by
      have hnanos := t.nanos_lt
      rw [civil_second]
      omega
    nanos := Nat.mod_lt _ (by decide) }

/-- An instant that has the seconds and the nanoseconds of what is shown is shown as this. -/
theorem civil_eq {t : Instant} {c : Civil} (hdate : c.date.Exists) (hclock : c.OnClock)
    (hseconds : t.seconds = c.seconds) (hnanos : t.nanos = c.countedNanos) : t.civil = c := by
  obtain ⟨date, hour, minute, second, nanos⟩ := c
  obtain ⟨hhour, hminute, hsecond, hlt⟩ := hclock
  simp only [Civil.seconds, Civil.countedNanos, nanosPerSecond] at *
  have hdays : t.seconds / 86400 = date.toDays := by omega
  have hofDay : (t.seconds % 86400).toNat = hour * 3600 + minute * 60 + min second 59 := by omega
  have hshown : Date.ofDays (t.seconds / 86400) = date := by rw [hdays, Date.ofDays_toDays hdate]
  simp only [civil, hshown, hofDay, hnanos, nanosPerSecond, Civil.mk.injEq, true_and]
  refine ⟨?_, ?_, ?_, ?_⟩
  · omega
  · omega
  · split <;> omega
  · split <;> omega

/-- Second 60 is counted as a leap second behind second 59, and nothing else is. -/
theorem isRegular_of_counted {t : Instant} {c : Civil} (hclock : c.OnClock)
    (hseconds : t.seconds = c.seconds) (hnanos : t.nanos = c.countedNanos) : t.IsRegular := by
  obtain ⟨hhour, hminute, hsecond, hlt⟩ := hclock
  simp only [IsRegular, Civil.seconds, Civil.countedNanos, nanosPerSecond] at *
  intro hleap
  split at hnanos
  · omega
  · omega

/-- What is read from clock and calendar is a regular instant, and is shown by them again. -/
theorem civil_of_instant? {c : Civil} {t : Instant} (hclock : c.OnClock)
    (hinstant : c.instant? = some t) : t.IsRegular ∧ t.civil = c := by
  unfold Civil.instant? at hinstant
  split at hinstant
  next hdate =>
      obtain ⟨hseconds, hnanos⟩ := fields_of_of? hinstant
      exact ⟨isRegular_of_counted hclock hseconds hnanos, civil_eq hdate hclock hseconds hnanos⟩
  next => cases hinstant

end Instant

/-- Whatever clock and calendar can show is shown at some regular instant. -/
theorem Civil.Possible.exists_civil {c : Civil} (hc : c.Possible) :
    ∃ t : Instant, t.IsRegular ∧ t.civil = c := by
  have hdays := (Date.toDays_range hc.date).mp hc.year
  obtain ⟨hhour, hminute, hsecond, hnanos⟩ := hc.clock
  have hfits : c.countedNanos < 2000000000 ∧ -8334601228800 ≤ c.seconds ∧
      c.seconds ≤ 8210266876799 := by
    unfold countedNanos nanosPerSecond Civil.seconds at *
    exact ⟨by split <;> omega, by omega, by omega⟩
  obtain ⟨hlt, hlower, hupper⟩ := hfits
  exact ⟨⟨c.seconds, c.countedNanos, hlt, hlower, hupper⟩,
    Instant.isRegular_of_counted hc.clock rfl rfl, Instant.civil_eq hc.date hc.clock rfl rfl⟩

/-- The regular instants are all that clock and calendar can show. -/
theorem Instant.existsUnique_civil_iff {c : Civil} :
    (∃! t : Instant, t.IsRegular ∧ t.civil = c) ↔ c.Possible := by
  constructor
  · rintro ⟨t, ⟨-, rfl⟩, -⟩
    exact t.possible_civil
  · intro hc
    obtain ⟨t, hregular, ht⟩ := hc.exists_civil
    refine ⟨t, ⟨hregular, ht⟩, ?_⟩
    rintro t' ⟨hregular', ht'⟩
    exact civil_injective hregular' hregular (ht'.trans ht.symm)

/-! ## Whole milliseconds -/

namespace Instant

/-- The other instant is the last whole millisecond of the instant's own second that is not after
it. A leap second is a second of its own. -/
structure IsFloor (t floor : Instant) : Prop where
  seconds : floor.seconds = t.seconds
  millis : floor.nanos % 1000000 = 0
  le : floor.nanos ≤ t.nanos
  lt : t.nanos < floor.nanos + 1000000
  leap : nanosPerSecond ≤ floor.nanos ↔ nanosPerSecond ≤ t.nanos

theorem isFloor_truncateToMillis (t : Instant) : t.IsFloor t.truncateToMillis where
  seconds := rfl
  millis := Nat.mul_mod_left ..
  le := Nat.div_mul_le_self ..
  lt := Nat.lt_div_mul_add (by decide)
  leap := by
    show 1000000000 ≤ t.nanos / 1000000 * 1000000 ↔ 1000000000 ≤ t.nanos
    omega

theorem truncateToMillis_eq_self {t : Instant} (hmillis : t.nanos % 1000000 = 0) :
    t.truncateToMillis = t := by
  have hnanos : t.nanos / 1000000 * 1000000 = t.nanos := by omega
  cases t
  simp only [truncateToMillis, mk.injEq, true_and]
  exact hnanos

theorem isRegular_truncateToMillis {t : Instant} (ht : t.IsRegular) :
    t.truncateToMillis.IsRegular := fun hleap => ht (t.isFloor_truncateToMillis.leap.mp hleap)

theorem civil_truncateToMillis (t : Instant) : t.truncateToMillis.civil = t.civil.toMillis := by
  have hsecond : t.nanos / 1000000 * 1000000 / 1000000000 = t.nanos / 1000000000 := by omega
  have hnanos : t.nanos / 1000000 * 1000000 % 1000000000 =
    t.nanos % 1000000000 / 1000000 * 1000000 := by omega
  simp only [civil, truncateToMillis, Civil.toMillis, nanosPerSecond, hsecond, hnanos]

/-- A leap second is kept apart from the next second, so its nanoseconds are in whole
milliseconds by themselves. -/
theorem nanos_civil_mod (t : Instant) : t.civil.nanos % 1000000 = t.nanos % 1000000 := by
  show t.nanos % 1000000000 % 1000000 = t.nanos % 1000000
  omega

end Instant

end VersionedBucket.Time
