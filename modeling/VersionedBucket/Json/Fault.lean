import VersionedBucket.Text.Quoted
import VersionedBucket.Time.Scan

/-! # Faults of JSON text

A text that should describe a value can end too early, can break the grammar, or can be fine as JSON
and not describe the value. Only in the last case is there something to tell apart.
-/

namespace VersionedBucket.Json

/-- What was found where something else was expected. -/
inductive Found where
  | null
  | boolean (value : Bool)
  | natural (value : Nat)
  | negative (value : Int)
  /-- A number that is no sixty-four-bit integer, as it is printed. -/
  | decimal (printed : String)
  | text (value : String)
  | sequence
  | map
  deriving DecidableEq, Repr

/-- What is expected at a place. -/
inductive Expected where
  | text
  | boolean
  | uint16
  | uint64
  | sequence
  | time
  /-- A record by its name. -/
  | record (name : String)
  deriving DecidableEq, Repr

/-- Why a JSON text does not describe a value of the expected kind. -/
inductive Mismatch where
  | kind (found : Found) (expected : Expected)
  /-- A number that is too large or too small. -/
  | value (found : Found) (expected : Expected)
  | duplicate (field : String)
  | missing (field : String)
  /-- A record written as a sequence that ends too early. -/
  | length (found : Nat) (record : String) (fields : Nat)
  | time (fault : Time.Fault)
  deriving DecidableEq, Repr

/-- Why a JSON text cannot be used. -/
inductive Fault where
  /-- The text ends too early. -/
  | ended
  /-- The text is not JSON. -/
  | malformed
  /-- The text does not describe the value. -/
  | mismatch (cause : Mismatch)
  deriving DecidableEq, Repr

namespace Found

/-- How a message speaks of what was found. -/
def message : Found → String
  | .null => "null"
  | .boolean value => "boolean \x60" ++ (if value then "true" else "false") ++ "\x60"
  | .natural value => "integer \x60" ++ toString value ++ "\x60"
  | .negative value => "integer \x60" ++ toString value ++ "\x60"
  | .decimal printed => "floating point \x60" ++ printed ++ "\x60"
  | .text value => "string " ++ Text.quote value
  | .sequence => "sequence"
  | .map => "map"

end Found

namespace Expected

/-- How a message speaks of what was expected. -/
def message : Expected → String
  | .text => "a string"
  | .boolean => "a boolean"
  | .uint16 => "u16"
  | .uint64 => "u64"
  | .sequence => "a sequence"
  | .time => "an RFC 3339 formatted date and time string"
  | .record name => "struct " ++ name

end Expected

namespace Mismatch

def message : Mismatch → String
  | .kind found expected => "invalid type: " ++ found.message ++ ", expected " ++ expected.message
  | .value found expected => "invalid value: " ++ found.message ++ ", expected " ++ expected.message
  | .duplicate field => "duplicate field \x60" ++ field ++ "\x60"
  | .missing field => "missing field \x60" ++ field ++ "\x60"
  | .length found record fields =>
    "invalid length " ++ toString found ++ ", expected struct " ++ record ++ " with " ++
      toString fields ++ " elements"
  | .time fault => fault.message

end Mismatch
end VersionedBucket.Json
