import VersionedBucket.Markup.Character
import VersionedBucket.Text.Utf8

/-! # From bytes to characters

A document is bytes. A byte order mark at its front settles the family of encodings; the
declaration, if there is one, may name an encoding that goes with it. Without either the bytes are
UTF-8. Bytes that the encoding does not allow make the document unreadable.
-/

namespace VersionedBucket.Markup

/-- What the front of a document says about its encoding. -/
inductive ByteOrderMark where
  | absent
  | utf8
  | bigEndian
  | littleEndian
  deriving DecidableEq, Repr

/-- Takes the mark off the front. -/
def ByteOrderMark.split : List UInt8 → ByteOrderMark × List UInt8
  | 0xEF :: 0xBB :: 0xBF :: rest => (.utf8, rest)
  | 0xFE :: 0xFF :: rest => (.bigEndian, rest)
  | 0xFF :: 0xFE :: rest => (.littleEndian, rest)
  | bs => (.absent, bs)

/-- An encoding that a declaration can name. -/
inductive EncodingName where
  | utf8
  | latin1
  | utf16
  | ascii
  deriving DecidableEq, Repr

/-- The spellings of the encodings, in the order in which they are tried. -/
def EncodingName.spellings : List (EncodingName × String) :=
  [(.utf8, "utf-8"), (.utf8, "utf8"), (.latin1, "iso-8859-1"), (.latin1, "latin1"),
    (.utf16, "utf-16"), (.utf16, "utf16"), (.ascii, "ascii"), (.ascii, "us-ascii")]

/-- Two names agree as far as the shorter one goes, whatever the case of the second. -/
def agree (spelling name : List Char) : Bool :=
  (spelling.zip name).all fun (s, c) => s == c.toLower

/-- The encoding that a declared name stands for. -/
def EncodingName.ofText? (name : List Char) : Option EncodingName :=
  (spellings.find? fun (_, spelling) => agree spelling.toList name).map (·.1)

/-- How the bytes after the declaration are read. -/
inductive Encoding where
  | utf8
  | latin1
  | ascii
  | bigEndian
  | littleEndian
  deriving DecidableEq, Repr

/-- The encoding for a mark and a declared name; none if they contradict each other. -/
def Encoding.settle : ByteOrderMark → Option EncodingName → Option Encoding
  | .absent, none => some .utf8
  | .absent, some .utf8 => some .utf8
  | .absent, some .latin1 => some .latin1
  | .absent, some .ascii => some .ascii
  | .absent, some .utf16 => none
  | .utf8, none => some .utf8
  | .utf8, some .utf8 => some .utf8
  | .utf8, some _ => none
  | .bigEndian, none => some .bigEndian
  | .bigEndian, some .utf16 => some .bigEndian
  | .bigEndian, some _ => none
  | .littleEndian, none => some .littleEndian
  | .littleEndian, some .utf16 => some .littleEndian
  | .littleEndian, some _ => none

/-- Bytes as the characters of the same numbers. -/
def byteChars (bs : List UInt8) : List Char := bs.map fun b => Char.ofNat b.toNat

/-- Pairs of bytes as sixteen-bit units; none if a byte is left over. -/
def units (combine : UInt8 → UInt8 → Nat) : List UInt8 → Option (List Nat)
  | [] => some []
  | [_] => none
  | a :: b :: rest => (units combine rest).map (combine a b :: ·)

/-- The characters of sixteen-bit units; none if a surrogate has no partner. -/
def unitChars : List Nat → Option (List Char)
  | [] => some []
  | u :: rest =>
    if u < 0xD800 ∨ 0xDFFF < u then (unitChars rest).map (Char.ofNat u :: ·)
    else if u ≤ 0xDBFF then
      match rest with
      | [] => none
      | v :: rest =>
        if 0xDC00 ≤ v ∧ v ≤ 0xDFFF then
          (unitChars rest).map (Char.ofNat ((u - 0xD800) * 0x400 + (v - 0xDC00) + 0x10000) :: ·)
        else none
    else none

/-- The characters that bytes stand for in an encoding. -/
def Encoding.decode : Encoding → List UInt8 → Option (List Char)
  | .utf8, bs => (Text.Utf8.decode bs).toOption
  | .latin1, bs => some (byteChars bs)
  | .ascii, bs => if bs.all (· < 0x80) then some (byteChars bs) else none
  | .bigEndian, bs => (units (fun a b => a.toNat * 256 + b.toNat) bs).bind unitChars
  | .littleEndian, bs => (units (fun a b => b.toNat * 256 + a.toNat) bs).bind unitChars

end VersionedBucket.Markup
