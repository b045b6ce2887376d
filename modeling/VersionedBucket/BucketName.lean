import VersionedBucket.Text.Blank
import VersionedBucket.Text.Numeral
import VersionedBucket.Text.Search

/-! # Bucket names

Which texts may name a bucket, under the strict rules that a request needs and under the
relaxed ones of older buckets. The conditions are looked at in a fixed order and the first that
fails is reported.
-/

namespace VersionedBucket.BucketName

open Text

/-- The two sets of rules. -/
inductive Rules where
  /-- Small letters, digits, dots and hyphens. -/
  | strict
  /-- Capitals, underscores and colons too. -/
  | relaxed
  deriving DecidableEq, Repr

/-- Why a text names no bucket. -/
inductive Fault where
  | empty
  | tooShort
  | tooLong
  | address
  | successiveCharacters
  | edge
  | characters (rules : Rules)
  deriving DecidableEq, Repr

def Fault.message : Fault → String
  | .empty => "bucket name cannot be empty"
  | .tooShort => "bucket name cannot be less than 3 characters"
  | .tooLong => "bucket name cannot be greater than 63 characters"
  | .address => "bucket name cannot be an IP address"
  | .successiveCharacters =>
    "bucket name contains invalid successive characters '..', '.-' or '-.'"
  | .edge => "bucket name cannot start or end with '-' or '_'"
  | .characters .strict => "bucket name does not follow S3 standards strictly"
  | .characters .relaxed => "bucket name does not follow S3 standards"

def isSmallAlphanumeric (c : Char) : Bool := c.isLower || c.isDigit

/-- The characters that may begin and end a name. -/
def isEdge : Rules → Char → Bool
  | .strict, c => isSmallAlphanumeric c
  | .relaxed, c => c.isAlphanum

/-- The characters that may stand inside a name. -/
def isInner : Rules → Char → Bool
  | .strict, c => isSmallAlphanumeric c || c == '.' || c == '-'
  | .relaxed, c => c.isAlphanum || c == '.' || c == '-' || c == '_' || c == ':'

/-- A number from 0 to 255 as it is usually written, without leading zeros. -/
def isOctet (digits : List Char) : Bool :=
  match digits with
  | ['0'] => true
  | '0' :: _ => false
  | _ =>
    match Numeral.readDigits 255 0 digits with
    | .ok _ => !digits.isEmpty
    | .error _ => false

def isAddress (name : List Char) : Bool :=
  let parts := pieces '.' name
  parts.length == 4 && parts.all isOctet

/-- A hyphen or an underscore at either end. -/
def hasBadEdge (name : List Char) : Bool :=
  let bad (c : Char) := c == '-' || c == '_'
  name.head?.any bad || name.getLast?.any bad

/-- Every character fits its place. -/
def fits (rules : Rules) (name : List Char) : Bool :=
  name.all (isInner rules) && name.head?.any (isEdge rules) && name.getLast?.any (isEdge rules)

/-- Tests a name. Lengths are in bytes. -/
def check (rules : Rules) (name : String) : Except Fault Unit :=
  let cs := name.toList
  let length := (bytes name).length
  if (trimmed cs).isEmpty then .error .empty
  else if length < 3 then .error .tooShort
  else if 63 < length then .error .tooLong
  else if isAddress cs then .error .address
  else if hasPair '.' '.' cs || hasPair '.' '-' cs || hasPair '-' '.' cs then
    .error .successiveCharacters
  else if hasBadEdge cs then .error .edge
  else if fits rules cs then .ok ()
  else .error (.characters rules)

end VersionedBucket.BucketName
