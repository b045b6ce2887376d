import VersionedBucket.Fault
import VersionedBucket.Markup.Node
import VersionedBucket.Page
import VersionedBucket.Time.Iso

/-! # Pages as document trees

The element that carries a page, and the page that an element carries. Keys, prefixes, the delimiter
and key markers are coded as the page says; ids, tags, storage classes and owners never are. Reading
looks at the children in a fixed order, whatever order they stand in, and reports the first fault in
that order.
-/

namespace VersionedBucket

open Markup

/-- The tag of the root. -/
def rootTag : String := "ListVersionsResult"

/-- The tag of a stored object's version. -/
def versionTag : String := "Version"

/-- The tag of a delete marker. -/
def deleteMarkerTag : String := "DeleteMarker"

/-- A leaf for a value that may be missing. -/
def optionalLeaf (tag : String) : Option String → List Element
  | none => []
  | some value => [.leaf tag value]

/-- The text of a number. -/
def numberText (n : Nat) : String := String.ofList (Text.decimal n)

namespace Owner

def toElement (o : Owner) : Element :=
  .branch "Owner" (.leaf "ID" o.id :: optionalLeaf "DisplayName" o.displayName)

/-- The owner that an element describes. A missing id is empty. -/
def ofElement (e : Element) : Owner :=
  { id := (e.childContent? "ID").getD "", displayName := e.childContent? "DisplayName" }

end Owner

namespace Version

/-- The element for a version. A delete marker has no size. -/
def toElement (coding : Coding) (v : Version) : Element :=
  .branch (if v.isDeleteMarker then deleteMarkerTag else versionTag) <|
    [.leaf "Key" (coding.encode v.key), .leaf "VersionId" v.versionId,
      .leaf "IsLatest" (Text.truthWord v.isLatest),
      .leaf "LastModified" (Time.Iso.format v.lastModified)] ++
    optionalLeaf "ETag" v.etag ++
    (if v.isDeleteMarker then [] else [.leaf "Size" (numberText v.size.toNat)]) ++
    optionalLeaf "StorageClass" v.storageClass ++
    (v.owner.map Owner.toElement).toList

end Version

namespace Markup.Element

/-- The text of a child that has to be there. -/
def requiredText (e : Element) (tag : String) : Except Invalid String :=
  (e.childText tag).mapError Invalid.document

/-- A coded value. -/
def decoded (coding : Coding) (value : String) : Except Invalid String :=
  (coding.decode value).mapError Invalid.coded

/-- The coded value of a child, if it has one. -/
def decodedContent? (e : Element) (coding : Coding) (tag : String) :
    Except Invalid (Option String) :=
  (coding.decode? (e.childContent? tag)).mapError Invalid.coded

/-- The truth value of a child, in any case and with blanks around it; false if it has none. -/
def flag (e : Element) (tag : String) : Except Invalid Bool :=
  match e.childContent? tag with
  | none => .ok false
  | some s =>
    match Text.truth? (Text.lower (Text.trim s)) with
    | some b => .ok b
    | none => .error .boolean

/-- The number of a child, with blanks around it, or a default if it has none. -/
def number {α : Type} (e : Element) (tag : String) (default : α)
    (read : String → Except Text.Numeral.Fault α) : Except Invalid α :=
  match e.childContent? tag with
  | none => .ok default
  | some s => (read (Text.trim s)).mapError Invalid.integer

end Markup.Element

namespace Version

/-- The version that an element describes. A missing id is the null id, an empty one is empty. -/
def ofElement (coding : Coding) (e : Element) : Except Invalid Version := do
  let key ← Element.decoded coding (← e.requiredText "Key")
  let isLatest ← e.flag "IsLatest"
  let written ← e.requiredText "LastModified"
  let lastModified ← (Time.Iso.parse written).mapError Invalid.time
  let size ← e.number "Size" 0 Text.Numeral.readUInt64
  return {
    key
    versionId := (e.childText? "VersionId").getD nullId
    isLatest
    lastModified
    etag := e.childContent? "ETag"
    size
    storageClass := e.childContent? "StorageClass"
    owner := (e.child? "Owner").map Owner.ofElement
    isDeleteMarker := e.tag == deleteMarkerTag }

end Version

namespace Page

def toElement (p : Page) : Element :=
  let coded := p.encoding.encode
  .branch rootTag <|
    [.leaf "Name" p.bucket] ++
    optionalLeaf "Prefix" (p.keyPrefix.map coded) ++
    optionalLeaf "KeyMarker" (p.keyMarker.map coded) ++
    optionalLeaf "VersionIdMarker" p.versionIdMarker ++
    optionalLeaf "NextKeyMarker" (p.nextKeyMarker.map coded) ++
    optionalLeaf "NextVersionIdMarker" p.nextVersionIdMarker ++
    [.leaf "MaxKeys" (numberText p.maxKeys.toNat)] ++
    optionalLeaf "Delimiter" (p.delimiter.map coded) ++
    optionalLeaf "EncodingType" p.encoding ++
    [.leaf "IsTruncated" (Text.truthWord p.isTruncated)] ++
    p.versions.map (Version.toElement p.encoding) ++
    p.commonPrefixes.map fun common => .branch "CommonPrefixes" [.leaf "Prefix" (coded common)]

/-- The common prefix that an element describes. -/
def commonPrefix (coding : Coding) (e : Element) : Except Invalid String := do
  Element.decoded coding (← e.requiredText "Prefix")

/-- The page that an element describes. Versions and delete markers keep the order they stand in. -/
def ofElement (e : Element) : Except Invalid Page := do
  if e.tag ≠ rootTag then
    throw (.document (.unexpectedRoot e.tag rootTag))
  let coding := e.childContent? "EncodingType"
  let bucket ← e.requiredText "Name"
  let keyPrefix ← e.decodedContent? coding "Prefix"
  let keyMarker ← e.decodedContent? coding "KeyMarker"
  let delimiter ← e.decodedContent? coding "Delimiter"
  let maxKeys ← e.number "MaxKeys" 1000 Text.Numeral.readUInt16
  let isTruncated ← e.flag "IsTruncated"
  let nextKeyMarker ← e.decodedContent? coding "NextKeyMarker"
  let entries := merge (e.matching versionTag) (e.matching deleteMarkerTag)
  let versions ← entries.mapM (Version.ofElement coding)
  let commonPrefixes ← (e.matching "CommonPrefixes").mapM fun (_, c) => commonPrefix coding c
  return normalize {
    bucket
    versions
    commonPrefixes
    keyPrefix
    keyMarker
    versionIdMarker := e.childContent? "VersionIdMarker"
    delimiter
    maxKeys
    encoding := coding
    isTruncated
    nextKeyMarker
    nextVersionIdMarker := e.childContent? "NextVersionIdMarker" }

end Page
end VersionedBucket
