import VersionedBucket.Markup.Document
import VersionedBucket.Markup.Printer
import VersionedBucket.Page.Json
import VersionedBucket.Page.Tree

/-! # Pages on the wire

A page as a document and as JSON text, and back from the bytes of either. Whatever is read
is settled.
-/

namespace VersionedBucket

namespace Page

def toXml (p : Page) : String := p.toElement.document

/-- The page of a document. That the document is well-formed is settled before it is looked at. -/
def ofXml (bs : List UInt8) : Except Fault Page :=
  match Markup.Element.ofDocument? bs with
  | none => .error .notWellFormed
  | some root => (ofElement root).mapError Fault.invalid

def toJson (p : Page) : String := String.ofList p.json

/-- The page of a JSON text before it is settled. -/
def partsOfJson (bs : List UInt8) : Except Fault Page :=
  (Json.Reader.whole record.read bs).mapError Fault.json

def ofJson (bs : List UInt8) : Except Fault Page := (partsOfJson bs).map normalize

end Page

def Version.ofJson (bs : List UInt8) : Except Fault Version :=
  (Json.Reader.whole record.read bs).mapError Fault.json

def Owner.ofJson (bs : List UInt8) : Except Fault Owner :=
  (Json.Reader.whole record.read bs).mapError Fault.json

end VersionedBucket
