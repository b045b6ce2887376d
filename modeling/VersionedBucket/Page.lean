import VersionedBucket.Percent
import VersionedBucket.Version

/-! # Pages of a listing

One page of the versions in a bucket. Fields can be put together freely; `Page.normalize` then
settles them, and `Page.Normal` says what holds of every page that is handed out: continuation
markers only on a truncated page, common prefixes only under a delimiter and each once, and no empty
text where a value is optional. The versions stay as they are and in their order.
-/

namespace VersionedBucket

/-- One page of a listing. -/
structure Page where
  bucket : String
  versions : List Version := []
  commonPrefixes : List String := []
  keyPrefix : Option String := none
  keyMarker : Option String := none
  versionIdMarker : Option String := none
  delimiter : Option String := none
  maxKeys : UInt16 := 1000
  encoding : Coding := none
  isTruncated : Bool := false
  nextKeyMarker : Option String := none
  nextVersionIdMarker : Option String := none
  deriving DecidableEq, Repr

/-- The first occurrence of each text, in the order given. -/
def firstOccurrences : List String → List String
  | [] => []
  | s :: rest => s :: (firstOccurrences rest).filter (· != s)

namespace Page

/-- The settled form of a page. -/
def normalize (p : Page) : Page :=
  let delimiter := nonEmpty p.delimiter
  { p with
    versions := p.versions.map Version.normalize
    commonPrefixes := if delimiter.isSome then firstOccurrences p.commonPrefixes else []
    keyPrefix := nonEmpty p.keyPrefix
    keyMarker := nonEmpty p.keyMarker
    versionIdMarker := nonEmpty p.versionIdMarker
    delimiter
    encoding := nonEmpty p.encoding
    nextKeyMarker := if p.isTruncated then nonEmpty p.nextKeyMarker else none
    nextVersionIdMarker := if p.isTruncated then nonEmpty p.nextVersionIdMarker else none }

/-- What holds of every page that is handed out. -/
structure Normal (p : Page) : Prop where
  /-- There is nowhere to go on behind a page that is not truncated. -/
  markers : p.isTruncated = false → p.nextKeyMarker = none ∧ p.nextVersionIdMarker = none
  /-- Keys are rolled up only under a delimiter. -/
  rolledUp : p.delimiter = none → p.commonPrefixes = []
  distinct : p.commonPrefixes.Nodup
  /-- No value that may be missing is an empty text. -/
  filled : ∀ value ∈ [p.keyPrefix, p.keyMarker, p.versionIdMarker, p.delimiter, p.encoding,
    p.nextKeyMarker, p.nextVersionIdMarker], value ≠ some ""
  versions : ∀ v ∈ p.versions, v.Normal

end Page
end VersionedBucket
