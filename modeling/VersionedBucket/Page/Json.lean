import VersionedBucket.Fault
import VersionedBucket.Json.Record
import VersionedBucket.Json.Writer
import VersionedBucket.Page
import VersionedBucket.Time.Rfc3339

/-! # Pages as JSON

The records of owners, versions and pages: the names and order of their fields, which of them have
to be there, and what is taken for those that are not. Optional texts without a value are not
written. A page is settled after it is read.
-/

namespace VersionedBucket

open Json

/-- What has been read of an owner. -/
structure PartialOwner where
  id : Option String := none
  displayName : Option (Option String) := none

namespace Owner

/-- The record of an owner. -/
def record : Record PartialOwner Owner where
  name := "Owner"
  fields := [
    { name := "ID"
      isRequired := true
      isSet := (·.id.isSome)
      read := fun s => return { s with id := some (← Reader.text) } },
    { name := "DisplayName"
      isSet := (·.displayName.isSome)
      read := fun s => return { s with displayName := some (← Reader.optional Reader.text) } }]
  start := {}
  finish := fun s => do
    return { id := ← need "ID" s.id, displayName := s.displayName.join }

/-- An owner in JSON. -/
def json (o : Owner) : List Char :=
  Writer.object
    (Writer.member "ID" (Writer.text o.id) ::
      Writer.optionalMember "DisplayName" Writer.text o.displayName)

end Owner

/-- What has been read of a version. -/
structure PartialVersion where
  key : Option String := none
  versionId : Option String := none
  isLatest : Option Bool := none
  lastModified : Option Time.Instant := none
  etag : Option (Option String) := none
  size : Option UInt64 := none
  storageClass : Option (Option String) := none
  owner : Option (Option Owner) := none
  isDeleteMarker : Option Bool := none

namespace Version

/-- The record of a version. -/
def record : Record PartialVersion Version where
  name := "VersionSummary"
  fields := [
    { name := "Key"
      isRequired := true
      isSet := (·.key.isSome)
      read := fun s => return { s with key := some (← Reader.text) } },
    { name := "VersionId"
      isRequired := true
      isSet := (·.versionId.isSome)
      read := fun s => return { s with versionId := some (← Reader.text) } },
    { name := "IsLatest"
      isRequired := true
      isSet := (·.isLatest.isSome)
      read := fun s => return { s with isLatest := some (← Reader.boolean) } },
    { name := "LastModified"
      isRequired := true
      isSet := (·.lastModified.isSome)
      read := fun s => return { s with lastModified := some (← Reader.time Time.Rfc3339.parse) } },
    { name := "ETag"
      isSet := (·.etag.isSome)
      read := fun s => return { s with etag := some (← Reader.optional Reader.text) } },
    { name := "Size"
      isSet := (·.size.isSome)
      read := fun s => return { s with size := some (← Reader.uint64) } },
    { name := "StorageClass"
      isSet := (·.storageClass.isSome)
      read := fun s => return { s with storageClass := some (← Reader.optional Reader.text) } },
    { name := "Owner"
      isSet := (·.owner.isSome)
      read := fun s => return { s with owner := some (← Reader.optional Owner.record.read) } },
    { name := "IsDeleteMarker"
      isSet := (·.isDeleteMarker.isSome)
      read := fun s => return { s with isDeleteMarker := some (← Reader.boolean) } }]
  start := {}
  finish := fun s => do
    return {
      key := ← need "Key" s.key
      versionId := ← need "VersionId" s.versionId
      isLatest := ← need "IsLatest" s.isLatest
      lastModified := ← need "LastModified" s.lastModified
      etag := s.etag.join
      size := s.size.getD 0
      storageClass := s.storageClass.join
      owner := s.owner.join
      isDeleteMarker := s.isDeleteMarker.getD false }

/-- A version in JSON. -/
def json (v : Version) : List Char :=
  Writer.object <|
    [Writer.member "Key" (Writer.text v.key),
      Writer.member "VersionId" (Writer.text v.versionId),
      Writer.member "IsLatest" (Writer.boolean v.isLatest),
      Writer.member "LastModified" (Writer.text (Time.Rfc3339.format v.lastModified))] ++
    Writer.optionalMember "ETag" Writer.text v.etag ++
    [Writer.member "Size" (Writer.natural v.size.toNat)] ++
    Writer.optionalMember "StorageClass" Writer.text v.storageClass ++
    Writer.optionalMember "Owner" Owner.json v.owner ++
    [Writer.member "IsDeleteMarker" (Writer.boolean v.isDeleteMarker)]

end Version

/-- What has been read of a page. -/
structure PartialPage where
  bucket : Option String := none
  versions : Option (List Version) := none
  commonPrefixes : Option (List String) := none
  keyPrefix : Option (Option String) := none
  keyMarker : Option (Option String) := none
  versionIdMarker : Option (Option String) := none
  delimiter : Option (Option String) := none
  maxKeys : Option UInt16 := none
  encoding : Option Coding := none
  isTruncated : Option Bool := none
  nextKeyMarker : Option (Option String) := none
  nextVersionIdMarker : Option (Option String) := none

namespace Page

/-- The record of a page that is not settled yet. -/
def record : Record PartialPage Page where
  name := "VersionListingParts"
  fields := [
    { name := "Name"
      isRequired := true
      isSet := (·.bucket.isSome)
      read := fun s => return { s with bucket := some (← Reader.text) } },
    { name := "VersionSummaries"
      isSet := (·.versions.isSome)
      read := fun s => return { s with versions := some (← Reader.list Version.record.read) } },
    { name := "CommonPrefixes"
      isSet := (·.commonPrefixes.isSome)
      read := fun s => return { s with commonPrefixes := some (← Reader.list Reader.text) } },
    { name := "Prefix"
      isSet := (·.keyPrefix.isSome)
      read := fun s => return { s with keyPrefix := some (← Reader.optional Reader.text) } },
    { name := "KeyMarker"
      isSet := (·.keyMarker.isSome)
      read := fun s => return { s with keyMarker := some (← Reader.optional Reader.text) } },
    { name := "VersionIdMarker"
      isSet := (·.versionIdMarker.isSome)
      read := fun s => return { s with versionIdMarker := some (← Reader.optional Reader.text) } },
    { name := "Delimiter"
      isSet := (·.delimiter.isSome)
      read := fun s => return { s with delimiter := some (← Reader.optional Reader.text) } },
    { name := "MaxKeys"
      isSet := (·.maxKeys.isSome)
      read := fun s => return { s with maxKeys := some (← Reader.uint16) } },
    { name := "EncodingType"
      isSet := (·.encoding.isSome)
      read := fun s => return { s with encoding := some (← Reader.optional Reader.text) } },
    { name := "IsTruncated"
      isSet := (·.isTruncated.isSome)
      read := fun s => return { s with isTruncated := some (← Reader.boolean) } },
    { name := "NextKeyMarker"
      isSet := (·.nextKeyMarker.isSome)
      read := fun s => return { s with nextKeyMarker := some (← Reader.optional Reader.text) } },
    { name := "NextVersionIdMarker"
      isSet := (·.nextVersionIdMarker.isSome)
      read := fun s =>
        return { s with nextVersionIdMarker := some (← Reader.optional Reader.text) } }]
  start := {}
  finish := fun s => do
    return {
      bucket := ← need "Name" s.bucket
      versions := s.versions.getD []
      commonPrefixes := s.commonPrefixes.getD []
      keyPrefix := s.keyPrefix.join
      keyMarker := s.keyMarker.join
      versionIdMarker := s.versionIdMarker.join
      delimiter := s.delimiter.join
      maxKeys := s.maxKeys.getD 1000
      encoding := s.encoding.join
      isTruncated := s.isTruncated.getD false
      nextKeyMarker := s.nextKeyMarker.join
      nextVersionIdMarker := s.nextVersionIdMarker.join }

/-- A page in JSON. -/
def json (p : Page) : List Char :=
  Writer.object <|
    [Writer.member "Name" (Writer.text p.bucket),
      Writer.member "VersionSummaries" (Writer.list (p.versions.map Version.json)),
      Writer.member "CommonPrefixes" (Writer.list (p.commonPrefixes.map Writer.text))] ++
    Writer.optionalMember "Prefix" Writer.text p.keyPrefix ++
    Writer.optionalMember "KeyMarker" Writer.text p.keyMarker ++
    Writer.optionalMember "VersionIdMarker" Writer.text p.versionIdMarker ++
    Writer.optionalMember "Delimiter" Writer.text p.delimiter ++
    [Writer.member "MaxKeys" (Writer.natural p.maxKeys.toNat)] ++
    Writer.optionalMember "EncodingType" Writer.text p.encoding ++
    [Writer.member "IsTruncated" (Writer.boolean p.isTruncated)] ++
    Writer.optionalMember "NextKeyMarker" Writer.text p.nextKeyMarker ++
    Writer.optionalMember "NextVersionIdMarker" Writer.text p.nextVersionIdMarker

end Page
end VersionedBucket
