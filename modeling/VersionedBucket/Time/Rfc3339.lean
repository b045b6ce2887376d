import VersionedBucket.Time.Scan

/-! # Times in RFC 3339 text

The form of times in JSON. Writing is canonical: UTC, marked `Z`, with as many groups of three
digits of fraction as are needed. Reading is relaxed: one- and two-digit fields, blanks in several
places, any offset, and any number of fraction digits, of which nine count.
-/

namespace VersionedBucket.Time.Rfc3339

open Text

/-- The fraction of a second: nothing, or a point and 3, 6 or 9 digits, the fewest
that are exact. -/
def fractionText (nanos : Nat) : List Char :=
  if nanos = 0 then []
  else if nanos % 1000000 = 0 then '.' :: padded 3 (nanos / 1000000)
  else if nanos % 1000 = 0 then '.' :: padded 6 (nanos / 1000)
  else '.' :: padded 9 nanos

def format (t : Instant) : String :=
  let c := t.civil
  String.ofList (c.text ++ fractionText c.nanos ++ ['Z'])

/-- The character between date and time. -/
def separator : Scan Unit
  | [] => .error .tooShort
  | c :: rest => if c = 't' ∨ c = 'T' ∨ c = ' ' then .ok ((), rest) else .error .invalid

/-- A fraction, if there is one, as nanoseconds. -/
def fraction : Scan Nat
  | '.' :: rest => do
    let (n, after) ← Scan.digits 9 rest
    let count := rest.length - after.length
    .ok (n * Nat.pow 10 (9 - count), after.dropWhile fun c => (digit? c).isSome)
  | cs => .ok (0, cs)

/-- Two characters that a reader expects to be digits. When text is missing, one ASCII character is
not enough to judge, while a character of several bytes is already wrong. -/
def twoDigits : Scan (Nat × Nat)
  | [] => .error .tooShort
  | [c] => if c.toNat < 0x80 then .error .tooShort else .error .invalid
  | a :: b :: rest =>
    match digit? a, digit? b with
    | some x, some y => .ok ((x, y), rest)
    | _, _ => .error .invalid

/-- The sign of an offset: whether time is behind UTC. -/
def sign : Scan Bool
  | [] => .error .tooShort
  | c :: rest =>
    if c = '+' then .ok (false, rest)
    else if c = '-' ∨ c = '\u2212' then .ok (true, rest)
    else .error .invalid

/-- A numeric offset in seconds: a sign, two digits of hours, two of minutes, and any colons and
blanks between them. -/
def numericOffset : Scan Int := do
  let behind ← sign
  let (h, h') ← twoDigits
  modify fun cs => cs.dropWhile fun c => c == ':' || isBlank c
  let (m, m') ← twoDigits
  if 6 ≤ m then Scan.fail .outOfRange
  let seconds : Int := (h * 10 + h') * 3600 + (m * 10 + m') * 60
  pure (if behind then -seconds else seconds)

def offset : Scan Int
  | a :: b :: c :: rest =>
    if a.toLower = 'u' ∧ b.toLower = 't' ∧ c.toLower = 'c' then .ok (0, rest)
    else if a = 'Z' ∨ a = 'z' then .ok (0, b :: c :: rest)
    else numericOffset (a :: b :: c :: rest)
  | a :: rest =>
    if a = 'Z' ∨ a = 'z' then .ok (0, rest) else numericOffset (a :: rest)
  | [] => .error .tooShort

/-- Date, clock and offset. Blanks may stand at the end. -/
def fields : Scan (Civil × Int) := do
  let year ← Scan.year
  Scan.skipBlanks
  Scan.literal '-'
  let month ← Scan.field 1 12
  Scan.skipBlanks
  Scan.literal '-'
  let day ← Scan.field 1 31
  separator
  let hour ← Scan.field 0 23
  Scan.skipBlanks
  Scan.literal ':'
  let minute ← Scan.field 0 59
  Scan.skipBlanks
  Scan.literal ':'
  let second ← Scan.field 0 60
  let nanos ← fraction
  Scan.skipBlanks
  let offset ← offset
  Scan.skipBlanks
  pure ({ date := ⟨year, month, day⟩, hour, minute, second, nanos }, offset)

/-- Reads a time. The local time has to be in range itself, the offset has to be less than a day,
and then the time in UTC has to be in range. -/
def parse (s : String) : Except Fault Instant := do
  let (civil, offset) ← fields.whole s
  match civil.instant? with
  | none => .error .outOfRange
  | some shown =>
    if offset.natAbs < 86400 then
      match Instant.of? (shown.seconds - offset) shown.nanos with
      | some t => .ok t
      | none => .error .impossible
    else .error .outOfRange

end VersionedBucket.Time.Rfc3339
