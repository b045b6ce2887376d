import VersionedBucket.BucketName
import VersionedBucket.Json.Fault
import VersionedBucket.Markup.Node
import VersionedBucket.Percent

/-! # Faults

Everything that can go wrong with a listing: a request or a document that is refused, a bucket that
is not there, a text that is not even well-formed, and whatever a lister reports on its own account.
-/

namespace VersionedBucket

/-- Why a request or the content of a document is refused. -/
inductive Invalid where
  | bucketName (fault : BucketName.Fault)
  | maxKeys (value : UInt16)
  | document (fault : Markup.Fault)
  | time (fault : Time.Fault)
  | integer (fault : Text.Numeral.Fault)
  | boolean
  | coded (fault : Percent.Fault)
  /-- A truncated page that gives no place to go on. -/
  | noContinuation (bucket : String)
  /-- A truncated page whose place to go on is the one it was asked for. -/
  | stalled (bucket keyMarker : String)
  deriving DecidableEq, Repr

def Invalid.message : Invalid → String
  | .bucketName fault => fault.message
  | .maxKeys value =>
    "max-keys " ++ toString value ++ " is not supported; allowed range is 1 to 1000"
  | .document fault => "XML error: " ++ fault.message
  | .time fault => "time parse error: " ++ fault.message
  | .integer fault => "integer parse error: " ++ fault.message
  | .boolean => "boolean parse error: " ++ Text.truthFault
  | .coded fault => "url decoding of '" ++ fault.input ++ "' failed: " ++ fault.cause.message
  | .noContinuation bucket =>
    "truncated listing of bucket '" ++ bucket ++ "' carries no continuation marker"
  | .stalled bucket keyMarker =>
    "listing of bucket '" ++ bucket ++ "' did not advance past key marker '" ++ keyMarker ++ "'"

/-- Why there is no page. -/
inductive Fault where
  | invalid (cause : Invalid)
  /-- A document that is not well-formed. -/
  | notWellFormed
  | json (fault : Json.Fault)
  | noSuchBucket (bucket : String)
  /-- A failure of the lister itself. -/
  | lister (reason : String)
  deriving DecidableEq, Repr

def Fault.message : Fault → String
  | .invalid cause => "validation error: " ++ cause.message
  | .notWellFormed => "XML parse error"
  | .json (.mismatch cause) => "JSON error: " ++ cause.message
  | .json .ended => "JSON error: the text ends too early"
  | .json .malformed => "JSON error: the text is malformed"
  | .noSuchBucket bucket => "bucket '" ++ bucket ++ "' does not exist"
  | .lister reason => "listing failed: " ++ reason

end VersionedBucket
