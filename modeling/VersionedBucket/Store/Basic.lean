import VersionedBucket.Fault
import VersionedBucket.Text.Search
import VersionedBucket.Version

/-! # A store of versions

Buckets of keys, the keys of a bucket in the order of their bytes, and under each key its versions,
newest first. A key without versions is not kept. The ids and tags of new versions are made from ids
that are drawn from outside, and their times from readings of a clock.
-/

namespace VersionedBucket

/-- Keys with their versions. -/
abbrev Bucket := List (String × List Version)

namespace Bucket

def versions (b : Bucket) (key : String) : List Version :=
  match b with
  | [] => []
  | (k, vs) :: rest => if k = key then vs else versions rest key

/-- Puts a version before all others of its key. -/
def push (b : Bucket) (v : Version) : Bucket :=
  match b with
  | [] => [(v.key, [v])]
  | (k, vs) :: rest =>
    if k = v.key then (k, v :: vs) :: rest
    else if Text.Before v.key k then (v.key, [v]) :: (k, vs) :: rest
    else (k, vs) :: push rest v

/-- Takes out the first version of a key with an id. -/
def remove (b : Bucket) (key versionId : String) : Bucket :=
  match b with
  | [] => []
  | (k, vs) :: rest =>
    if k = key then
      match vs.eraseP (·.versionId == versionId) with
      | [] => rest
      | left => (k, left) :: rest
    else (k, vs) :: remove rest key versionId

/-- A key has a version with an id. -/
def holds (b : Bucket) (key versionId : String) : Bool :=
  (b.versions key).any (·.versionId == versionId)

end Bucket

/-- All buckets by name. -/
structure Store where
  buckets : List (String × Bucket) := []
  deriving DecidableEq, Repr

/-- What is drawn from outside for a new version: two new ids and a reading of the clock. -/
structure Draw where
  versionId : String
  tagId : String
  clock : Time.Instant
  deriving DecidableEq, Repr

/-- What a new version is marked with. -/
structure Stamp where
  versionId : String
  lastModified : Time.Instant
  etag : String
  deriving DecidableEq, Repr

/-- The time is cut to the milliseconds that a listing shows, and the tag is an id in quotes. -/
def Draw.stamp (d : Draw) : Stamp where
  versionId := d.versionId
  lastModified := d.clock.truncateToMillis
  etag := "\"" ++ d.tagId ++ "\""

namespace Store

def bucket? (s : Store) (name : String) : Option Bucket := s.buckets.lookup name

def replace (s : Store) (name : String) (b : Bucket) : Store :=
  ⟨s.buckets.map fun (n, old) => (n, if n = name then b else old)⟩

/-- Creates an empty bucket unless there is one of that name; says whether it did. -/
def makeBucket (s : Store) (name : String) : Bool × Store :=
  match s.bucket? name with
  | some _ => (false, s)
  | none => (true, ⟨s.buckets ++ [(name, [])]⟩)

/-- Adds a version as the newest of its key, under an owner. -/
def push (s : Store) (owner : Option Owner) (bucket : String) (v : Version) : Except Fault Store :=
  match s.bucket? bucket with
  | none => .error (.noSuchBucket bucket)
  | some b => .ok (s.replace bucket (b.push { v with owner }))

def putObject (s : Store) (owner : Option Owner) (bucket key : String) (size : UInt64)
    (stamp : Stamp) : Except Fault Store :=
  s.push owner bucket (.object key stamp.versionId stamp.lastModified stamp.etag size)

def putDeleteMarker (s : Store) (owner : Option Owner) (bucket key : String) (stamp : Stamp) :
    Except Fault Store :=
  s.push owner bucket (.deleteMarker key stamp.versionId stamp.lastModified)

/-- Takes out one version of a key; says whether it was there. -/
def removeVersion (s : Store) (bucket key versionId : String) : Except Fault (Bool × Store) :=
  match s.bucket? bucket with
  | none => .error (.noSuchBucket bucket)
  | some b =>
    if b.holds key versionId then .ok (true, s.replace bucket (b.remove key versionId))
    else .ok (false, s)

end Store
end VersionedBucket
