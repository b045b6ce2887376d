import VersionedBucket.Time.Calendar

/-! # Instants

Points of time in UTC, to the nanosecond, in the years from -262143 to 262142. A leap second is
counted as part of the second before it: its nanoseconds run on from one thousand million. There
may be one after any second, but a clock shows it as the sixtieth only after the last second of
a minute.
-/

namespace VersionedBucket.Time

def nanosPerSecond : Nat := 1000000000

structure Instant where
  /-- Seconds since 1970-01-01T00:00:00Z, leap seconds not counted. -/
  seconds : Int
  /-- Nanoseconds in the second; a leap second goes on above one thousand million. -/
  nanos : Nat
  nanos_lt : nanos < 2000000000
  lower : -8334601228800 ≤ seconds
  upper : seconds ≤ 8210266876799
  deriving DecidableEq, Repr

namespace Instant

/-- The instant with these numbers, if there is one. -/
def of? (seconds : Int) (nanos : Nat) : Option Instant :=
  if h : nanos < 2000000000 ∧ -8334601228800 ≤ seconds ∧ seconds ≤ 8210266876799 then
    some ⟨seconds, nanos, h.1, h.2.1, h.2.2⟩
  else none

def epoch : Instant := ⟨0, 0, by decide, by decide, by decide⟩

instance : Inhabited Instant := ⟨epoch⟩

end Instant

/-- An instant as a clock and a calendar show it. -/
structure Civil where
  date : Date
  hour : Nat
  minute : Nat
  /-- Up to 60: a leap second at the end of its minute. -/
  second : Nat
  nanos : Nat
  deriving DecidableEq, Repr

namespace Instant

/-- What clock and calendar show. -/
def civil (t : Instant) : Civil :=
  let ofDay := (t.seconds % 86400).toNat
  { date := .ofDays (t.seconds / 86400)
    hour := ofDay / 3600
    minute := ofDay / 60 % 60
    second := ofDay % 60 + t.nanos / nanosPerSecond
    nanos := t.nanos % nanosPerSecond }

/-- The same time without what it has below the millisecond. A leap second stays one. -/
def truncateToMillis (t : Instant) : Instant :=
  { t with
    nanos := t.nanos / 1000000 * 1000000
    nanos_lt := by have := t.nanos_lt; omega }

end Instant

namespace Civil

/-- Seconds since the start of 1970; a leap second counts as the second before it. -/
def seconds (c : Civil) : Int :=
  c.date.toDays * 86400 + c.hour * 3600 + c.minute * 60 + min c.second 59

/-- Nanoseconds as an instant counts them. -/
def countedNanos (c : Civil) : Nat := if c.second = 60 then c.nanos + nanosPerSecond else c.nanos

/-- The instant that clock and calendar show, if the date exists and is in range. -/
def instant? (c : Civil) : Option Instant :=
  if c.date.Exists then Instant.of? c.seconds c.countedNanos else none

end Civil
end VersionedBucket.Time
