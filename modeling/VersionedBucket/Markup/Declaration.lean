import VersionedBucket.Markup.Encoding
import VersionedBucket.Markup.Name
import VersionedBucket.Markup.Reference

/-! # The declaration of a document

A document may begin with a declaration of its edition and, after that, its encoding and whether it
stands alone, in this order. It is read before the encoding is known: without a byte order mark it
is UTF-8, whatever encoding it names for the rest. Its end is the first question mark before a right
angle bracket, even inside of a value.
-/

namespace VersionedBucket.Markup

structure Declaration where
  edition : Edition := .first
  encoding : Option EncodingName := none
  deriving DecidableEq, Repr

namespace Declaration

def opening : List Char := "<?xml".toList

def closing : List Char := "?>".toList

/-- The number of characters up to the end of the first occurrence of the closing; all if
there is none. -/
def lengthThroughClosing (cs : List Char) : Nat := ((Text.throughFirst closing cs).getD cs).length

/-- How many characters at the front of a document are its declaration. -/
def length (cs : List Char) : Nat :=
  if opening.isPrefixOf cs &&
    (cs.drop opening.length).head?.any isSpace then lengthThroughClosing cs else 0

def drop? : (expected : List Char) → List Char → Option (List Char)
  | [], cs => some cs
  | e :: expected, c :: cs => if e = c then drop? expected cs else none
  | _ :: _, [] => none

/-- Reads the rest of a value up to its quote; `reference` is the name so far, backwards, of a
reference that has begun, and `value` what stands before. -/
def value? (edition : Edition) (quote : Char) :
    (reference : Option (List Char)) → (value : List Char) → List Char →
      Option (List Char × List Char)
  | _, _, [] => none
  | none, value, c :: rest =>
    if c = quote then some (value.reverse, rest)
    else if c = '&' then value? edition quote (some []) value rest
    else if c = '<' || !edition.isPlain c then none
    else value? edition quote none (c :: value) rest
  | some name, value, c :: rest =>
    if c = ';' then
      match referent? edition name.reverse with
      | some d => value? edition quote none (d :: value) rest
      | none => none
    else if isReferencePart name c then value? edition quote (some (c :: name)) value rest
    else none

/-- Reads an attribute whose name is a given letter and, perhaps behind a prefix, the given rest of
a word. White space may stand on both sides of the equals sign. -/
def attribute? (edition : Edition) (letter : Char) (word : String) (cs : List Char) :
    Option (List Char × List Char) := do
  let cs ← drop? [letter] cs
  let name := cs.takeWhile isNamePart
  if name.head?.any isNameStart then
    let name ← Name.ofChars? name
    if name.base = word.toList then
      let cs ← drop? ['='] ((cs.dropWhile isNamePart).dropWhile isSpace)
      match cs.dropWhile isSpace with
      | '"' :: rest => value? edition '"' none [] rest
      | '\'' :: rest => value? edition '\'' none [] rest
      | _ => none
    else none
  else none

/-- The edition for a declared version. -/
def edition? (value : List Char) : Option Edition :=
  if value = "1.0".toList then some .first
  else if value = "1.1".toList then some .second
  else none

def finish? (d : Declaration) (cs : List Char) : Option Declaration :=
  if cs.dropWhile isSpace = closing then some d else none

/-- Reads the end of a declaration, before which the document may be said to stand alone or not. -/
def standalone? (d : Declaration) (cs : List Char) : Option Declaration :=
  match cs.dropWhile isSpace with
  | 's' :: rest =>
    if cs.head?.any isSpace then do
      let (value, rest) ← attribute? d.edition 's' "tandalone" ('s' :: rest)
      if value = "yes".toList ∨ value = "no".toList then d.finish? rest else none
    else none
  | rest => d.finish? rest

/-- Reads what follows the version: an encoding, perhaps, and the end. -/
def encoding? (edition : Edition) (cs : List Char) : Option Declaration :=
  match cs.dropWhile isSpace with
  | 'e' :: rest =>
    if cs.head?.any isSpace then do
      let (value, rest) ← attribute? edition 'e' "ncoding" ('e' :: rest)
      standalone? { edition, encoding := some (← EncodingName.ofText? value) } rest
    else none
  | _ => standalone? { edition } cs

/-- Reads a declaration, the whole of it. -/
def ofChars? (cs : List Char) : Option Declaration := do
  let rest ← drop? opening cs
  let (value, rest) ← attribute? .first 'v' "ersion" (rest.dropWhile isSpace)
  encoding? (← edition? value) rest

/-- Reads the declaration at the front of a document, if its length is not zero. -/
def ofFront? (front : List Char) : Option Declaration :=
  if front.isEmpty then some {} else ofChars? front

end Declaration

/-- The edition and the characters of a document after its declaration; none if its bytes
cannot be read. -/
def characters (bs : List UInt8) : Option (Edition × List Char) := do
  let (mark, bs) := ByteOrderMark.split bs
  match mark with
  | .absent | .utf8 =>
    let n := Declaration.length (byteChars bs)
    let d ← Declaration.ofFront? (← Encoding.utf8.decode (bs.take n))
    let encoding ← Encoding.settle mark d.encoding
    some (d.edition, ← encoding.decode (bs.drop n))
  | .bigEndian | .littleEndian =>
    let encoding ← Encoding.settle mark none
    let cs ← encoding.decode bs
    let n := Declaration.length cs
    let d ← Declaration.ofFront? (cs.take n)
    let _ ← Encoding.settle mark d.encoding
    some (d.edition, cs.drop n)

end VersionedBucket.Markup
