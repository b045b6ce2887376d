import VersionedBucket.Markup.Character
import VersionedBucket.Text.Search

/-! # Names

Names of elements and attributes, which may have the prefix of a name space. No name of any kind may
go on beyond a certain length.
-/

namespace VersionedBucket.Markup

open Text

/-- The number of bytes after which no name goes on. -/
def nameLimit : Nat := 262144

/-- No character of a name stands beyond the limit. -/
def isWithinLimit (name : List Char) : Bool :=
  name.dropLast.foldl (fun size c => size + c.utf8Size) 0 ≤ nameLimit

/-- A name as it is written, perhaps with the prefix of a name space. -/
structure Name where
  space : Option (List Char)
  base : List Char
  deriving DecidableEq, Repr

/-- At most one colon, and something on both sides of it. -/
def Name.ofChars? (cs : List Char) : Option Name :=
  if isWithinLimit cs then
    match pieces ':' cs with
    | [base] => if base.isEmpty then none else some ⟨none, base⟩
    | [space, base] => if space.isEmpty || base.isEmpty then none else some ⟨some space, base⟩
    | _ => none
  else none

end VersionedBucket.Markup
