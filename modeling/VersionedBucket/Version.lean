import VersionedBucket.Time.Instant

/-! # Versions of keys

What a listing says about one version of one key, an object or a delete marker.
-/

namespace VersionedBucket

/-- Who a version belongs to. -/
structure Owner where
  id : String
  displayName : Option String := none
  deriving DecidableEq, Repr

structure Version where
  key : String
  versionId : String
  isLatest : Bool := false
  lastModified : Time.Instant
  etag : Option String := none
  size : UInt64 := 0
  storageClass : Option String := none
  owner : Option Owner := none
  isDeleteMarker : Bool := false
  deriving DecidableEq, Repr

/-- An empty optional text counts as absent. -/
def nonEmpty (value : Option String) : Option String := value.filter fun s => !s.isEmpty

namespace Version

/-- The id of versions written while a bucket kept no versions. -/
def nullId : String := "null"

/-- The version was written while its bucket kept no versions. -/
def isNull (v : Version) : Bool := v.versionId == nullId

/-- A stored object, of the usual storage class. -/
def object (key versionId : String) (lastModified : Time.Instant) (etag : String) (size : UInt64) :
    Version :=
  { key, versionId, lastModified, etag := some etag, size, storageClass := some "STANDARD" }

/-- A delete marker. It has no content. -/
def deleteMarker (key versionId : String) (lastModified : Time.Instant) : Version :=
  { key, versionId, lastModified, isDeleteMarker := true }

/-- The same version with empty optional texts taken for absent. The key, the id and the owner's id
may be empty. -/
def normalize (v : Version) : Version :=
  { v with
    etag := nonEmpty v.etag
    storageClass := nonEmpty v.storageClass
    owner := v.owner.map fun o => { o with displayName := nonEmpty o.displayName } }

/-- No value of a version that may be missing is an empty text. -/
structure Normal (v : Version) : Prop where
  etag : v.etag ≠ some ""
  storageClass : v.storageClass ≠ some ""
  displayName : ∀ o ∈ v.owner, o.displayName ≠ some ""

end Version
end VersionedBucket
