import VersionedBucket.Time.Scan

/-! # Listing timestamps

The form of times in a listing document: always UTC, written with exactly three digits of fraction,
read with three or none.
-/

namespace VersionedBucket.Time.Iso

/-- Writes an instant; what lies below the millisecond is cut off. -/
def format (t : Instant) : String :=
  let c := t.civil
  String.ofList (c.text ++ '.' :: padded 3 (c.nanos / 1000000) ++ ['Z'])

/-- Exactly three digits of fraction, as nanoseconds. -/
def millis : Scan Nat
  | a :: b :: c :: rest =>
    match Text.digit? a, Text.digit? b, Text.digit? c with
    | some x, some y, some z => .ok ((x * 100 + y * 10 + z) * 1000000, rest)
    | _, _, _ => .error .invalid
  | _ => .error .tooShort

/-- The fraction after its point. -/
def fraction : Scan Nat := do
  Scan.literal '.'
  millis

/-- Reads date and clock, then what `fraction` reads, then `Z`. -/
def fields (fraction : Scan Nat) : Scan Civil := do
  let year ← Scan.year
  Scan.literal '-'
  let month ← Scan.field 1 12
  Scan.literal '-'
  let day ← Scan.field 1 31
  Scan.literal 'T'
  let hour ← Scan.field 0 23
  Scan.literal ':'
  let minute ← Scan.field 0 59
  Scan.literal ':'
  let second ← Scan.field 0 60
  let nanos ← fraction
  Scan.literal 'Z'
  pure { date := ⟨year, month, day⟩, hour, minute, second, nanos }

/-- Reads a time in one of the two forms. -/
def parseWith (fraction : Scan Nat) (s : String) : Except Fault Instant := do
  let civil ← (fields fraction).whole s
  match civil.instant? with
  | some t => .ok t
  | none => .error .outOfRange

/-- Reads a listing time: with a fraction if that succeeds, otherwise without. Faults are those of
the reading without. -/
def parse (s : String) : Except Fault Instant :=
  match parseWith fraction s with
  | .ok t => .ok t
  | .error _ => parseWith (pure 0) s

end VersionedBucket.Time.Iso
