import VersionedBucket.Text.Numeral

/-! # The shortest decimal of a binary number

A double-precision number stands for all real numbers that round to it. Its shortest decimal is the
one with the fewest digits among them, and of those the one nearest to the number itself.
Everything is computed exactly: the number and the ends of its interval are fractions with one
common denominator.
-/

namespace VersionedBucket.Decimal

/-- A positive number with the interval of reals that round to it, in units of `1 / scale`. -/
structure Span where
  low : Nat
  value : Nat
  high : Nat
  scale : Nat
  /-- The ends belong to the interval. -/
  isClosed : Bool
  deriving DecidableEq, Repr

/-- The span of a double, from its bits without the sign. -/
def Span.ofBits (magnitude : Nat) : Span :=
  let fraction := magnitude % 4503599627370496
  let exponent : Nat := magnitude / 4503599627370496
  let significand := if exponent = 0 then fraction else fraction + 4503599627370496
  let shift : Int := (if exponent = 0 then 1 else (exponent : Int)) - 1077
  let unit := Nat.pow 2 shift.toNat
  -- Below a power of two numbers lie twice as close.
  let below := if fraction = 0 ∧ 1 < exponent then 1 else 2
  { low := (4 * significand - below) * unit
    value := 4 * significand * unit
    high := (4 * significand + 2) * unit
    scale := Nat.pow 2 (-shift).toNat
    isClosed := significand % 2 == 0 }

namespace Span

/-- `n` units of ten to the power `k`, lies in the interval. -/
def contains (s : Span) (k : Int) (n : Nat) : Bool :=
  let up := n * Nat.pow 10 k.toNat * s.scale
  let down := Nat.pow 10 (-k).toNat
  if s.isClosed then s.low * down ≤ up && up ≤ s.high * down
  else s.low * down < up && up < s.high * down

/-- The value in whole units of ten to the power `k`, rounded down. -/
def floor (s : Span) (k : Int) : Nat :=
  s.value * Nat.pow 10 (-k).toNat / (s.scale * Nat.pow 10 k.toNat)

/-- The upper neighbour on the grid of ten to the power `k` is nearer than the lower one; of two
equally near ones the even one counts as nearer. -/
def prefersUpper (s : Span) (k : Int) : Bool :=
  let unit := s.scale * Nat.pow 10 k.toNat
  let left := s.value * Nat.pow 10 (-k).toNat % unit
  unit < 2 * left || (unit == 2 * left && s.floor k % 2 == 1)

/-- The multiple of ten to the power `k` that lies in the interval, the nearest if there are two. -/
def onGrid? (s : Span) (k : Int) : Option Nat :=
  let n := s.floor k
  match s.contains k n && n != 0, s.contains k (n + 1) with
  | true, true => some (if s.prefersUpper k then n + 1 else n)
  | true, false => some n
  | false, true => some (n + 1)
  | false, false => none

/-- The places behind the point before the first digit of a number below one. -/
def leadingPlaces (s : Span) : (limit : Nat) → (places : Nat) → Nat
  | 0, places => places
  | limit + 1, places =>
    if s.scale ≤ s.value * Nat.pow 10 places then places else leadingPlaces s limit (places + 1)

/-- The power of ten of the first digit. -/
def order (s : Span) : Int :=
  if s.scale ≤ s.value then (Text.decimal (s.value / s.scale)).length - 1
  else -(leadingPlaces s 400 1 : Int)

/-- The first decimal found with `count` digits or more. -/
def search (s : Span) (order : Int) : (left count : Nat) → Nat × Int
  | 0, count => (s.floor (order - count), order - count)
  | left + 1, count =>
    let k := order - count
    match s.onGrid? k with
    | some n => (n, k)
    | none => search s order left (count + 1)

/-- The shortest decimal, as a number of units of a power of ten. -/
def shortest (s : Span) : Nat × Int := s.search s.order 17 0

end Span

/-- Digits without the zeros at their end. -/
def withoutTrailingZeros (digits : List Char) : List Char :=
  (digits.reverse.dropWhile (· == '0')).reverse

/-- How numbers are spread out in text. -/
structure Layout where
  /-- The least and greatest powers of ten of the first digit that are written
  without an exponent. -/
  leastPositional : Int
  greatestPositional : Int
  deriving DecidableEq, Repr

/-- The text of digits whose first has a given power of ten. A positional number always has a
fraction, and an exponent always has a sign and as many digits as it needs. -/
def Layout.text (l : Layout) (digits : List Char) (order : Int) : List Char :=
  if l.leastPositional ≤ order ∧ order ≤ l.greatestPositional then
    if order < 0 then '0' :: '.' :: (List.replicate ((-order).toNat - 1) '0' ++ digits)
    else
      let whole := order.toNat + 1
      let fraction := digits.drop whole
      digits.take whole ++ List.replicate (whole - digits.length) '0' ++
        '.' :: (if fraction.isEmpty then ['0'] else fraction)
  else
    let mantissa := digits.take 1 ++ (if digits.length ≤ 1 then [] else '.' :: digits.drop 1)
    mantissa ++ 'e' :: (if order < 0 then '-' else '+') :: Text.decimal order.natAbs

/-- The text of a finite double, from its bits. -/
def Layout.format (l : Layout) (bits : UInt64) : String :=
  let sign := if bits.toNat < 9223372036854775808 then [] else ['-']
  let magnitude := bits.toNat % 9223372036854775808
  if magnitude = 0 then String.ofList (sign ++ ['0', '.', '0'])
  else
    let (n, k) := (Span.ofBits magnitude).shortest
    let digits := Text.decimal n
    let order := k + digits.length - 1
    String.ofList (sign ++ l.text (withoutTrailingZeros digits) order)

end VersionedBucket.Decimal
