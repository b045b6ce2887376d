import VersionedBucket.Text.Utf8

/-! # Searching and ordering text

Texts are ordered by their UTF-8 bytes, as keys are in a bucket. Prefixes and first occurrences are
looked for character by character, which in UTF-8 is the same as byte by byte.
-/

namespace VersionedBucket.Text

/-- One text sorts strictly before another by its bytes. -/
def Before (a b : String) : Prop := bytes a < bytes b

instance (a b : String) : Decidable (Before a b) := by unfold Before; infer_instance

def startsWith (s start : String) : Bool := start.toList.isPrefixOf s.toList

/-- The characters up to the end of the first occurrence of a pattern. -/
def throughFirst (pattern : List Char) : List Char → Option (List Char)
  | [] => if pattern.isEmpty then some [] else none
  | c :: rest =>
    if pattern.isPrefixOf (c :: rest) then some pattern
    else (throughFirst pattern rest).map (c :: ·)

/-- Whether one character directly follows another somewhere. -/
def hasPair (first second : Char) : List Char → Bool
  | a :: b :: rest => (a == first && b == second) || hasPair first second (b :: rest)
  | _ => false

/-- The pieces between the occurrences of a separator; there is always one more than separators. -/
def pieces (separator : Char) : List Char → List (List Char)
  | [] => [[]]
  | c :: rest =>
    if c = separator then [] :: pieces separator rest
    else
      match pieces separator rest with
      | [] => [[c]]
      | piece :: others => (c :: piece) :: others

end VersionedBucket.Text
