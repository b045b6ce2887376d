import VersionedBucket.Decimal.Shortest
import VersionedBucket.Json.Reader

/-! # Numbers in JSON text

A number without fraction and exponent is an integer if it fits into sixty-four bits, with or
without sign; negative zero does not. Every other number is kept as a double. Its value is the
leading digits that fit into sixty-four bits, scaled by powers of ten in double precision: close to
the decimal that was written, and not always the nearest double.
-/

namespace VersionedBucket.Json

/-- A number as it is understood. -/
inductive Number where
  | natural (value : UInt64)
  /-- The negative of a positive number of at most two to the sixty-third. -/
  | negative (magnitude : Nat)
  | double (value : Float)

/-- Doubles in messages: without an exponent from 1e-5 to below 1e16, otherwise with a sign in the
exponent. -/
def doubleLayout : Decimal.Layout :=
  { leastPositional := -5, greatestPositional := 15 }

/-- A number as something found. -/
def Number.found : Number → Found
  | .natural value => .natural value.toNat
  | .negative magnitude => .negative (-(magnitude : Int))
  | .double value => .decimal (doubleLayout.format value.toBits)

namespace Reader

def greatestSignificand : Nat := 18446744073709551615

def digitValue (b : UInt8) : Nat := b.toNat - 0x30

/-- Adds digits to a significand as long as it stays in range; the result counts those added. -/
def absorb (significand : Nat) : List UInt8 → Nat × Nat
  | [] => (significand, 0)
  | b :: rest =>
    let next := significand * 10 + digitValue b
    if next ≤ greatestSignificand then
      let (total, count) := absorb next rest
      (total, count + 1)
    else (significand, 0)

/-- Ten to a power, rounded to a double. -/
def powerOfTen (n : Nat) : Float := Float.ofScientific 1 false n

/-- A double times a power of ten. Powers beyond the range are taken in steps, at most `steps`. -/
def scaled (value : Float) (exponent : Int) : (steps : Nat) → Except Fault Float
  | 0 => .ok value
  | steps + 1 =>
    if exponent.natAbs ≤ 308 then
      if 0 ≤ exponent then
        let product := value * powerOfTen exponent.natAbs
        if product.isInf then .error .malformed else .ok product
      else .ok (value / powerOfTen exponent.natAbs)
    else if value == 0 then .ok value
    else if 0 ≤ exponent then .error .malformed
    else scaled (value / powerOfTen 308) (exponent + 308) steps

/-- The number with a significand and a power of ten. After four steps nothing is left
of a significand. -/
def double (isNegative : Bool) (significand : Nat) (exponent : Int) : Except Fault Number := do
  let value ← scaled (UInt64.ofNat significand).toFloat exponent 5
  .ok (.double (if isNegative then -value else value))

/-- The greatest exponent that is read to its end. -/
def greatestExponent : Nat := 2147483647

def takeDigits (bs : List UInt8) : List UInt8 × List UInt8 :=
  (bs.takeWhile isDigit, bs.dropWhile isDigit)

/-- The value of digits, if it is a possible exponent. -/
def exponent? (digits : List UInt8) : Option Nat :=
  digits.foldlM (fun n b =>
    let next := n * 10 + digitValue b
    if next ≤ greatestExponent then some next else none) 0

/-- An exponent and what it makes of the digits before it. -/
def afterExponentMark (isNegative : Bool) (significand : Nat) (exponent : Int) : Reader Number :=
  fun bs => do
    let (isDown, bs) : Bool × List UInt8 :=
      match bs with
      | 0x2B :: rest => (false, rest)
      | 0x2D :: rest => (true, rest)
      | _ => (false, bs)
    let (digits, rest) := takeDigits bs
    if digits.isEmpty then
      .error (if bs.isEmpty then .ended else .malformed)
    else
      match exponent? digits with
      | some n =>
        let number ← double isNegative significand (if isDown then exponent - n else exponent + n)
        .ok (number, rest)
      | none =>
        if significand ≠ 0 ∧ !isDown then .error .malformed
        else .ok (.double (if isNegative then -0.0 else 0.0), rest)

/-- The end of a number that is a double in any case: an exponent, perhaps. -/
def afterDigits (isNegative : Bool) (significand : Nat) (exponent : Int) :
    Reader Number := fun bs =>
  match bs with
  | b :: rest =>
    if b = 0x65 ∨ b = 0x45 then afterExponentMark isNegative significand exponent rest
    else (double isNegative significand exponent).map (·, bs)
  | [] => (double isNegative significand exponent).map (·, bs)

/-- A fraction after its point, of which there has to be a digit. -/
def afterPoint (isNegative : Bool) (significand : Nat) (exponent : Int) : Reader Number := fun bs =>
  let (digits, rest) := takeDigits bs
  if digits.isEmpty then .error (if bs.isEmpty then .ended else .malformed)
  else
    let (significand, count) := absorb significand digits
    afterDigits isNegative significand (exponent - count) rest

/-- An integer without fraction and exponent. -/
def integer (isNegative : Bool) (significand : Nat) : Number :=
  if !isNegative then .natural (UInt64.ofNat significand)
  else if significand = 0 ∨ 9223372036854775808 < significand then
    .double (-(UInt64.ofNat significand).toFloat)
  else .negative significand

/-- A number after its sign. -/
def number (isNegative : Bool) : Reader Number := fun bs =>
  let (digits, rest) := takeDigits bs
  match digits with
  | [] => .error (if bs.isEmpty then .ended else .malformed)
  | first :: others =>
    if first = 0x30 ∧ !others.isEmpty then .error .malformed
    else
      let (significand, count) := absorb 0 digits
      let left := digits.length - count
      match rest with
      | 0x2E :: rest => afterPoint isNegative significand left rest
      | _ =>
        if left = 0 ∧ !(rest.head?.any fun b => b == 0x65 || b == 0x45) then
          .ok (integer isNegative significand, rest)
        else afterDigits isNegative significand left rest

end Reader
end VersionedBucket.Json
