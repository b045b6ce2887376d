import VersionedBucket.Fault
import VersionedBucket.Page
import VersionedBucket.Query
import VersionedBucket.Settings

/-! # Requests for a page

A request names a bucket and says which part of it is wanted and from where on. It can be tested,
written as query parameters, and moved on: from a page that answers it follows the request for the
next page, or that there is none, or that the page gives no usable place to go on.
-/

namespace VersionedBucket

/-- A request for one page of a listing. -/
structure Request where
  bucket : String
  /-- Only keys that start with this are wanted. -/
  keyPrefix : Option String := none
  /-- Keys are rolled up at the first occurrence of this after the prefix. -/
  delimiter : Option String := none
  /-- The listing goes on behind this key, or within its versions. -/
  keyMarker : Option String := none
  /-- The listing goes on behind this version of the marked key. -/
  versionIdMarker : Option String := none
  maxKeys : Option UInt16 := none
  settings : Settings := {}
  /-- Parameters that are sent along as they are. -/
  extra : Query := {}
  deriving DecidableEq, Repr

namespace Request

/-- The page size: the request's own or the default. -/
def pageSize (r : Request) : UInt16 := r.maxKeys.getD r.settings.defaultMaxKeys

/-- The coding that is asked for. -/
def encoding (r : Request) : Coding := if r.settings.urlEncoding then some Coding.url else none

/-- Tests the bucket's name and then the page size. -/
def validate (r : Request) : Except Invalid Unit :=
  match BucketName.check .strict r.bucket with
  | .error fault => .error (.bucketName fault)
  | .ok () =>
    if r.pageSize = 0 ∨ maxKeysLimit < r.pageSize then .error (.maxKeys r.pageSize) else .ok ()

theorem validate_eq_ok_iff {r : Request} : r.validate = .ok () ↔
    BucketName.check .strict r.bucket = .ok () ∧ 1 ≤ r.pageSize ∧ r.pageSize ≤ maxKeysLimit := by
  unfold validate
  cases hname : BucketName.check .strict r.bucket with
  | error fault => simp
  | ok _ =>
      have hpos : 1 ≤ r.pageSize ↔ r.pageSize ≠ 0 := by
        rw [UInt16.le_iff_toNat_le, ne_eq, ← UInt16.toNat_inj]
        exact Nat.one_le_iff_ne_zero
      simp [hpos]

/-- The query parameters of a request that passes the test. -/
def query (r : Request) : Except Invalid Query :=
  r.validate.map fun () =>
    r.extra
      |>.add "versions" ""
      |>.add? "delimiter" r.delimiter
      |>.add "max-keys" (String.ofList (Text.decimal r.pageSize.toNat))
      |>.add? "prefix" r.keyPrefix
      |>.add? "encoding-type" r.encoding
      |>.add? "key-marker" r.keyMarker
      |>.add? "version-id-marker" r.versionIdMarker

/-- A place in a listing: a key, and a version of it if the place lies within the key. -/
structure Cursor where
  key : String
  versionId : Option String
  deriving DecidableEq, Repr

end Request

/-- Where a truncated page says, or else shows, that the listing goes on. -/
def Page.cursor? (p : Page) : Option Request.Cursor :=
  match p.nextKeyMarker with
  | some key => some ⟨key, p.nextVersionIdMarker⟩
  | none => p.versions.getLast?.map fun last => ⟨last.key, some last.versionId⟩

namespace Request

/-- The request starts at a place. -/
def startsAt (r : Request) (cursor : Cursor) : Bool :=
  r.keyMarker == some cursor.key && r.versionIdMarker == cursor.versionId

/-- The same request from another place on. -/
def movedTo (r : Request) (cursor : Cursor) : Request :=
  { r with keyMarker := some cursor.key, versionIdMarker := cursor.versionId }

/-- The request for the page after `p`, or `none` if `p` is the last. -/
def next? (r : Request) (p : Page) : Except Invalid (Option Request) :=
  if p.isTruncated then
    match p.cursor? with
    | none => .error (.noContinuation r.bucket)
    | some cursor =>
      if r.startsAt cursor then .error (.stalled r.bucket cursor.key)
      else .ok (some (r.movedTo cursor))
  else .ok none

/-- What a user should hear about the step to the page after `p`. -/
def nextNotices (r : Request) (p : Page) : List Notice :=
  if p.isTruncated then
    match p.cursor? with
    | none => []
    | some cursor =>
      (if p.nextKeyMarker.isNone then [Notice.noNextKeyMarker r.bucket cursor.key] else []) ++
        (if r.startsAt cursor then [Notice.ownMarkers r.bucket] else [])
  else []

end Request
end VersionedBucket
