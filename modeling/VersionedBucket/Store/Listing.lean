import VersionedBucket.Store.Basic
import VersionedBucket.Walk

/-! # Listing a store

A store answers a request by reading the keys in order, from the marker or the prefix on, until the
prefix ends. A key with the delimiter after the prefix shows only as a common prefix; every other
key shows its versions. Only versions take up room on the page: the reading stops where something
new is due and the page holds as many versions as it may.
-/

namespace VersionedBucket.Store

open Text

/-- What was read off a bucket, and whether something was left over. -/
structure Reading where
  versions : List Version := []
  commonPrefixes : List String := []
  isTruncated : Bool := false
  deriving DecidableEq, Repr

/-- The versions of a key, newest first, with the newest marked as the latest. -/
def marked : List Version → List Version
  | [] => []
  | newest :: older =>
    { newest with isLatest := true } :: older.map fun v => { v with isLatest := false }

/-- The versions behind the one with an id; none if there is no such version. -/
def after (versionId : String) : List Version → List Version
  | [] => []
  | v :: rest => if v.versionId = versionId then rest else after versionId rest

/-- The delimiter of a request, unless it is empty. -/
def delimiter (r : Request) : Option String := nonEmpty r.delimiter

/-- The common prefix that a key is rolled up under: everything through the first delimiter behind
the request's prefix. -/
def rollUp? (r : Request) (key : String) : Option String := do
  let d ← delimiter r
  let start := (r.keyPrefix.getD "").toList
  let through ← throughFirst d.toList (key.toList.drop start.length)
  some (String.ofList (start ++ through))

def isMarked (r : Request) (key : String) : Bool := r.keyMarker == some key

/-- The versions of a key that are due: those behind the marked version if the key is
the marked one. -/
def due (r : Request) (key : String) (versions : List Version) : List Version :=
  if isMarked r key then
    match r.versionIdMarker with
    | some versionId => after versionId (marked versions)
    | none => []
  else marked versions

/-- Reads keys while there is room for `room` more versions; `seen` are the common
prefixes so far. -/
def read (r : Request) (room : Nat) (seen : List String) : Bucket → Reading
  | [] => {}
  | (key, versions) :: rest =>
    if isMarked r key && r.versionIdMarker.isNone then read r room seen rest
    else
      match rollUp? r key with
      | some common =>
        if common ∈ seen then read r room seen rest
        else if room = 0 then { isTruncated := true }
        else
          let reading := read r room (common :: seen) rest
          { reading with commonPrefixes := common :: reading.commonPrefixes }
      | none =>
        let due := due r key versions
        if room < due.length then { versions := due.take room, isTruncated := true }
        else
          let reading := read r (room - due.length) seen rest
          { reading with versions := due ++ reading.versions }

/-- The least key that a reading looks at. -/
def firstKey (r : Request) : String :=
  let start := r.keyPrefix.getD ""
  match r.keyMarker with
  | some marker => if Before start marker then marker else start
  | none => start

def range (r : Request) (b : Bucket) : Bucket :=
  (b.dropWhile fun (key, _) => decide (Before key (firstKey r))).takeWhile fun (key, _) =>
    startsWith key (r.keyPrefix.getD "")

/-- The page that answers a request for a bucket. -/
def page (r : Request) (b : Bucket) : Page :=
  let reading := read r r.pageSize.toNat [] (range r b)
  let last := if reading.isTruncated then reading.versions.getLast? else none
  Page.normalize
    { bucket := r.bucket
      versions := reading.versions
      commonPrefixes := reading.commonPrefixes
      keyPrefix := r.keyPrefix
      keyMarker := r.keyMarker
      versionIdMarker := r.versionIdMarker
      delimiter := delimiter r
      maxKeys := r.pageSize
      encoding := r.encoding
      isTruncated := reading.isTruncated
      nextKeyMarker := last.map (·.key)
      nextVersionIdMarker := last.map (·.versionId) }

def list (s : Store) (r : Request) : Except Fault Page :=
  match s.bucket? r.bucket with
  | none => .error (.noSuchBucket r.bucket)
  | some b => .ok (page r b)

/-- The store as a lister. Listing changes nothing. -/
def lister : Lister Store := fun r s => (s.list r, s)

end VersionedBucket.Store
