import VersionedBucket.Text.Blank
import VersionedBucket.Text.Numeral
import VersionedBucket.Time.Instant

/-! # Scanning times

The parts that a written time is made of, read one after the other from a list of characters. Each
field checks its range as soon as it is read, so the first fault in reading order is the one
reported; only whether the day exists in its month is left to the end.
-/

namespace VersionedBucket.Time

open Text

/-- Why a text is no time. -/
inductive Fault where
  /-- A field has a value that no time has. -/
  | outOfRange
  /-- The fields are fine, but the time lies outside the supported years. -/
  | impossible
  /-- A character does not fit. -/
  | invalid
  /-- The text ends too early. -/
  | tooShort
  /-- The text goes on after the time. -/
  | trailing
  deriving DecidableEq, Repr

def Fault.message : Fault → String
  | .outOfRange => "input is out of range"
  | .impossible => "no possible date and time matching input"
  | .invalid => "input contains invalid characters"
  | .tooShort => "premature end of input"
  | .trailing => "trailing input"

/-- A reader that takes characters from the front. -/
abbrev Scan := StateT (List Char) (Except Fault)

namespace Scan

def fail {α : Type} (fault : Fault) : Scan α := fun _ => .error fault

def skipBlanks : Scan Unit := fun cs => .ok ((), cs.dropWhile isBlank)

def literal (c : Char) : Scan Unit
  | [] => .error .tooShort
  | x :: rest => if x = c then .ok ((), rest) else .error .invalid

/-- The greatest number a field can hold before its own range is looked at. -/
def greatest : Nat := 9223372036854775807

/-- Reads at most `room` further digits after those worth `value`. -/
def moreDigits (value : Nat) : Nat → Scan Nat
  | 0, cs => .ok (value, cs)
  | _, [] => .ok (value, [])
  | room + 1, c :: rest =>
    match digit? c with
    | none => .ok (value, c :: rest)
    | some d =>
      if value * 10 + d ≤ greatest then moreDigits (value * 10 + d) room rest
      else .error .outOfRange

/-- Reads at least one digit and at most `room`. -/
def digits (room : Nat) : Scan Nat
  | [] => .error .tooShort
  | c :: rest => if (digit? c).isSome then moreDigits 0 room (c :: rest) else .error .invalid

/-- Reads as many digits as there are, at least one. -/
def allDigits : Scan Nat := fun cs => digits cs.length cs

/-- Reads a field of one or two digits whose value lies between two bounds. Blanks may
stand before it. -/
def field (least most : Nat) : Scan Nat := do
  skipBlanks
  let n ← digits 2
  if least ≤ n ∧ n ≤ most then pure n else fail .outOfRange

/-- Reads a year: up to four digits, or a sign and any number of them. Blanks may
stand before it. -/
def year : Scan Int := do
  skipBlanks
  let n : Int ← fun cs =>
    match cs with
    | '-' :: rest => (allDigits rest).map fun (n, after) => (-(n : Int), after)
    | '+' :: rest => (allDigits rest).map fun (n, after) => ((n : Int), after)
    | _ => (digits 4 cs).map fun (n, after) => ((n : Int), after)
  if -2147483648 ≤ n ∧ n ≤ 2147483647 then pure n else fail .outOfRange

/-- Runs a scan over a whole text. -/
def whole {α : Type} (scan : Scan α) (s : String) : Except Fault α :=
  match scan s.toList with
  | .error fault => .error fault
  | .ok (a, []) => .ok a
  | .ok (_, _ :: _) => .error .trailing

end Scan

/-- A number with leading zeros up to a width. -/
def padded (width n : Nat) : List Char :=
  let digits := decimal n
  List.replicate (width - digits.length) '0' ++ digits

/-- The year in a written time: four digits, or a sign and at least four outside the years 0 to
9999. -/
def yearText (year : Int) : List Char :=
  if 0 ≤ year ∧ year ≤ 9999 then padded 4 year.toNat
  else if year < 0 then '-' :: padded 4 (-year).toNat
  else '+' :: padded 4 year.toNat

/-- Date and clock up to the whole second, `YYYY-MM-DDThh:mm:ss`. -/
def Civil.text (c : Civil) : List Char :=
  yearText c.date.year ++ '-' :: padded 2 c.date.month ++ '-' :: padded 2 c.date.day ++
    'T' :: padded 2 c.hour ++ ':' :: padded 2 c.minute ++ ':' :: padded 2 c.second

end VersionedBucket.Time
