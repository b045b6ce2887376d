/-! # Numerals and truth values

Decimal text of natural numbers, and the reading of it: an optional single plus sign, then at least
one ASCII digit. The characters are read from left to right and the first problem is the one
reported, so a numeral can be too large before a later character is seen to be no digit.
-/

namespace VersionedBucket.Text

/-- The decimal digits of a number, without leading zeros. -/
def decimal (n : Nat) : List Char := Nat.toDigits 10 n

def digit? (c : Char) : Option Nat :=
  if '0' ≤ c ∧ c ≤ '9' then some (c.toNat - '0'.toNat) else none

/-- The value of an ASCII hexadecimal digit of either case. -/
def hexDigit? (c : Char) : Option Nat :=
  if '0' ≤ c ∧ c ≤ '9' then some (c.toNat - '0'.toNat)
  else if 'a' ≤ c ∧ c ≤ 'f' then some (c.toNat - 'a'.toNat + 10)
  else if 'A' ≤ c ∧ c ≤ 'F' then some (c.toNat - 'A'.toNat + 10)
  else none

namespace Numeral

/-- Why a text is no numeral. -/
inductive Fault where
  /-- There is no text. -/
  | empty
  /-- A character is no digit, or a sign stands alone. -/
  | invalidDigit
  /-- The value leaves the range before the text ends. -/
  | tooLarge
  deriving DecidableEq, Repr

def Fault.message : Fault → String
  | .empty => "cannot parse integer from empty string"
  | .invalidDigit => "invalid digit found in string"
  | .tooLarge => "number too large to fit in target type"

/-- Goes on reading digits after those worth `value`, up to `limit`. -/
def readDigits (limit value : Nat) : List Char → Except Fault Nat
  | [] => .ok value
  | c :: rest =>
    match digit? c with
    | none => .error .invalidDigit
    | some d =>
      if value * 10 + d ≤ limit then readDigits limit (value * 10 + d) rest
      else .error .tooLarge

/-- Reads a numeral that is at most `limit`. -/
def read (limit : Nat) : List Char → Except Fault Nat
  | [] => .error .empty
  | '+' :: [] => .error .invalidDigit
  | '+' :: rest => readDigits limit 0 rest
  | cs => readDigits limit 0 cs

def readUInt16 (s : String) : Except Fault UInt16 := (read 65535 s.toList).map UInt16.ofNat

def readUInt64 (s : String) : Except Fault UInt64 :=
  (read 18446744073709551615 s.toList).map UInt64.ofNat

end Numeral

def truth? (s : String) : Option Bool :=
  if s = "true" then some true else if s = "false" then some false else none

/-- The wording for a text that is neither truth value. -/
def truthFault : String := "provided string was not \x60true\x60 or \x60false\x60"

/-- A text with its ASCII capitals made small. No other letter has a small form among the letters of
`true` and `false`, so this is enough for reading truth values in any case. -/
def lower (s : String) : String := String.ofList (s.toList.map Char.toLower)

def truthWord (b : Bool) : String := if b then "true" else "false"

end VersionedBucket.Text
