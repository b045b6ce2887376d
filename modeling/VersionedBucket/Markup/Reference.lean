import VersionedBucket.Markup.Character
import VersionedBucket.Text.Numeral

/-! # References

What a reference in a document stands for: a character by its number, or one of the five characters
that every document can name.
-/

namespace VersionedBucket.Markup

open Text

/-- The value of digits with one more behind them. -/
def inBaseStep? (base value : Nat) (c : Char) : Option Nat := do
  let d ← hexDigit? c
  if d < base then some (value * base + d) else none

/-- The value of digits in a base; none without digits or for a character that is none. A plus sign
may stand before them. -/
def inBase? (base : Nat) (digits : List Char) : Option Nat :=
  let digits := if digits.head? = some '+' then digits.drop 1 else digits
  if digits.isEmpty then none
  else digits.foldlM (inBaseStep? base) 0

/-- The character of a numeric reference, from what stands between number sign and semicolon. -/
def numbered? (edition : Edition) (text : List Char) : Option Char := do
  let n ← match text with
    | 'x' :: digits => inBase? 16 digits
    | digits => inBase? 10 digits
  if h : n.isValidChar then
    let c := Char.ofNatAux n h
    if edition.isLegal c then some c else none
  else none

/-- The character that every document can name. -/
def predefined? (name : List Char) : Option Char :=
  if name = "lt".toList then some '<'
  else if name = "gt".toList then some '>'
  else if name = "amp".toList then some '&'
  else if name = "apos".toList then some '\''
  else if name = "quot".toList then some '"'
  else none

/-- The character that a reference stands for without any declarations. -/
def referent? (edition : Edition) (name : List Char) : Option Char :=
  match name with
  | '#' :: text => numbered? edition text
  | _ => predefined? name

/-- A character that can go on the name of a reference. -/
def isReferencePart (name : List Char) (c : Char) : Bool :=
  if name.isEmpty then isNameStart c || c == '#' else isNamePart c

end VersionedBucket.Markup
