/-! # Characters of a document

Which characters may stand in a document, which may stand in a name, and which are white space
between marks. The two editions of the standard differ in the control characters they admit.
-/

namespace VersionedBucket.Markup

/-- The edition of the standard that a document declares. -/
inductive Edition where
  | first
  | second
  deriving DecidableEq, Repr

/-- White space between marks: space, tab, line feed and carriage return only. -/
def isSpace (c : Char) : Bool := c == ' ' || c == '\t' || c == '\n' || c == '\r'

/-- A character that a document may contain, be it by reference. -/
def Edition.isLegal : Edition → Char → Bool
  | .first, c =>
    isSpace c || (0x20 ≤ c.toNat && c.toNat ≤ 0xFFFD) || 0x10000 ≤ c.toNat
  | .second, c => (1 ≤ c.toNat && c.toNat ≤ 0xFFFD) || 0x10000 ≤ c.toNat

/-- A legal character that may also be written as it is. In the second edition controls may not. -/
def Edition.isPlain (edition : Edition) (c : Char) : Bool :=
  edition.isLegal c &&
    (edition == .first ||
      !((1 ≤ c.toNat && c.toNat ≤ 8) || c.toNat == 0xB || c.toNat == 0xC ||
        (0xE ≤ c.toNat && c.toNat ≤ 0x1F) || (0x7F ≤ c.toNat && c.toNat ≤ 0x84) ||
        (0x86 ≤ c.toNat && c.toNat ≤ 0x9F)))

/-- A character that can begin a name; the colon is one. -/
def isNameStart (c : Char) : Bool :=
  let n := c.toNat
  c.isAlpha || c == ':' || c == '_' ||
    (0xC0 ≤ n && n ≤ 0xD6) || (0xD8 ≤ n && n ≤ 0xF6) || (0xF8 ≤ n && n ≤ 0x2FF) ||
    (0x370 ≤ n && n ≤ 0x37D) || (0x37F ≤ n && n ≤ 0x1FFF) || (0x200C ≤ n && n ≤ 0x200D) ||
    (0x2070 ≤ n && n ≤ 0x218F) || (0x2C00 ≤ n && n ≤ 0x2FEF) || (0x3001 ≤ n && n ≤ 0xD7FF) ||
    (0xF900 ≤ n && n ≤ 0xFDCF) || (0xFDF0 ≤ n && n ≤ 0xFFFD) || (0x10000 ≤ n && n ≤ 0xEFFFF)

/-- A character that can go on a name. -/
def isNamePart (c : Char) : Bool :=
  let n := c.toNat
  isNameStart c || c.isDigit || c == '-' || c == '.' || n == 0xB7 ||
    (0x300 ≤ n && n ≤ 0x36F) || (0x203F ≤ n && n ≤ 0x2040)

end VersionedBucket.Markup
