import VersionedBucket.Text.Blank
import VersionedBucket.Text.Numeral

/-! # Settings of a listing

What requests fall back on, and how it is read from environment variables. A variable that cannot be
used leaves its own setting at the default and is reported unless it is merely out of range.
-/

namespace VersionedBucket

/-- Defaults for requests. -/
structure Settings where
  /-- The page size of a request that names none. -/
  defaultMaxKeys : UInt16 := 1000
  /-- Whether keys are asked for in percent coding. -/
  urlEncoding : Bool := true
  /-- How many pages a walk may fetch; any number if absent. -/
  maxPages : Option UInt64 := none
  deriving DecidableEq, Repr

/-- The largest page size that may be asked for. -/
def maxKeysLimit : UInt16 := 1000

/-- Something that a user should hear of although nothing has failed. -/
inductive Notice where
  /-- A variable's value could not be read. -/
  | unparsable (variableName value : String)
  /-- A truncated page did not say where to go on. -/
  | noNextKeyMarker (bucket lastKey : String)
  /-- A page named its own start as the place to go on. -/
  | ownMarkers (bucket : String)
  deriving DecidableEq, Repr

def Notice.message : Notice → String
  | .unparsable variableName value =>
    "ignoring unparsable value '" ++ value ++ "' of " ++ variableName
  | .noNextKeyMarker bucket lastKey =>
    "truncated listing of bucket " ++ bucket ++
      " has no next key marker; resuming after " ++ lastKey
  | .ownMarkers bucket =>
    "listing of bucket " ++ bucket ++ " returned its own markers as continuation"

namespace Settings

def maxKeysVariable : String := "LISTING_MAX_KEYS"
def urlEncodingVariable : String := "LISTING_URL_ENCODING"
def maxPagesVariable : String := "LISTING_MAX_PAGES"

/-- The value of a variable without the blanks around it, if it is set and can be read. -/
def readVariable {α : Type} (read : String → Option α) (value : Option String) : Option α :=
  value.bind fun s => read (Text.trim s)

/-- A notice for a variable that is set and cannot be read. -/
def unparsable {α : Type} (read : String → Option α) (variableName : String)
    (value : Option String) : List Notice :=
  match value with
  | none => []
  | some s => if (read (Text.trim s)).isNone then [.unparsable variableName s] else []

/-- Settings from variables, and notices about those that cannot be read. -/
def ofVariables (lookup : String → Option String) : Settings × List Notice :=
  let maxKeys := lookup maxKeysVariable
  let urlEncoding := lookup urlEncodingVariable
  let maxPages := lookup maxPagesVariable
  let readMaxKeys s := (Text.Numeral.readUInt16 s).toOption
  let readMaxPages s := (Text.Numeral.readUInt64 s).toOption
  let default : Settings := {}
  ({ defaultMaxKeys :=
      ((readVariable readMaxKeys maxKeys).filter fun n => 1 ≤ n && n ≤ maxKeysLimit).getD
        default.defaultMaxKeys
     urlEncoding := (readVariable Text.truth? urlEncoding).getD default.urlEncoding
     maxPages := readVariable readMaxPages maxPages },
   unparsable readMaxKeys maxKeysVariable maxKeys ++
     unparsable Text.truth? urlEncodingVariable urlEncoding ++
     unparsable readMaxPages maxPagesVariable maxPages)

end Settings
end VersionedBucket
