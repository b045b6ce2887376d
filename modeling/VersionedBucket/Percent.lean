import VersionedBucket.Text.Numeral
import VersionedBucket.Text.Utf8

/-! # Percent coding

A text is written with every UTF-8 byte that is not unreserved as `%XX` in capitals. Reading is more
generous: a percent sign that two hexadecimal digits follow stands for a byte, every other percent
sign and the plus sign stand for themselves, and only the resulting bytes have to be UTF-8.

`Coding` says which listing values are coded at all: those of a listing whose encoding type
is `url`.
-/

namespace VersionedBucket.Percent

open Text

/-- Letters, digits and `-`, `_`, `.`, `~` need no coding. -/
def isUnreserved (b : UInt8) : Bool :=
  (0x61 ≤ b && b ≤ 0x7A) || (0x41 ≤ b && b ≤ 0x5A) || (0x30 ≤ b && b ≤ 0x39) ||
    b == 0x2D || b == 0x5F || b == 0x2E || b == 0x7E

/-- The capital hexadecimal digit of a number below sixteen. -/
def hexDigit (n : Nat) : Char :=
  if n < 10 then Char.ofNat ('0'.toNat + n) else Char.ofNat ('A'.toNat + (n - 10))

/-- The written form of one byte. -/
def encodeByte (b : UInt8) : List Char :=
  if isUnreserved b then [Char.ofNat b.toNat]
  else ['%', hexDigit (b.toNat / 16), hexDigit (b.toNat % 16)]

/-- The written form of a text. -/
def encode (s : String) : String := String.ofList ((bytes s).flatMap encodeByte)

/-- The value of a byte that is a hexadecimal digit. -/
def hexByte? (b : UInt8) : Option Nat := hexDigit? (Char.ofNat b.toNat)

/-- The byte that three bytes name together: a percent sign and two hexadecimal digits. -/
def named? (a high low : UInt8) : Option UInt8 :=
  if a = 0x25 then
    match hexByte? high, hexByte? low with
    | some x, some y => some (UInt8.ofNat (x * 16 + y))
    | _, _ => none
  else none

/-- Replaces each percent sign that two hexadecimal digits follow by the byte they name. -/
def unescape : List UInt8 → List UInt8
  | a :: high :: low :: rest =>
    match named? a high low with
    | some b => b :: unescape rest
    | none => a :: unescape (high :: low :: rest)
  | rest => rest

/-- A written value whose bytes do not spell a text. -/
structure Fault where
  /-- The value as it was written. -/
  input : String
  /-- What is wrong with its bytes; positions count decoded bytes. -/
  cause : Utf8.Fault
  deriving DecidableEq, Repr

/-- Reads a written text. -/
def decode (s : String) : Except Fault String :=
  match Utf8.decode (unescape (bytes s)) with
  | .ok cs => .ok (String.ofList cs)
  | .error cause => .error ⟨s, cause⟩

end VersionedBucket.Percent

namespace VersionedBucket

/-- How the key-like values of a listing are written. The only coding is named `url`, exactly so;
under any other name, and without one, values are written as they are. -/
abbrev Coding := Option String

namespace Coding

/-- The name that asks for percent coding. -/
def url : String := "url"

/-- Whether values are percent-coded. -/
def isUrl (coding : Coding) : Bool := coding == some url

/-- Writes a listing value. -/
def encode (coding : Coding) (value : String) : String :=
  if isUrl coding then Percent.encode value else value

/-- Reads a listing value. -/
def decode (coding : Coding) (value : String) : Except Percent.Fault String :=
  if isUrl coding then Percent.decode value else .ok value

/-- Reads a listing value that may be missing. -/
def decode? (coding : Coding) : Option String → Except Percent.Fault (Option String)
  | none => .ok none
  | some value => (decode coding value).map some

end Coding
end VersionedBucket
