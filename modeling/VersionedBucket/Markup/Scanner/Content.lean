import VersionedBucket.Markup.Scanner.Basic

/-! # Scanning content

Text and the marks in it that are no tags: references, comments, character-data sections and
instructions. Outside all elements there is only white space between marks.
-/

namespace VersionedBucket.Markup

namespace Scanner

/-- Between tags. A mark that ends nothing here is text. Every mark that begins something ends the
text before it, references excepted. -/
def stepContent (s : Scanner) (t : Token) : Step :=
  let isOutside := s.frames.isEmpty
  match t with
  | .character c =>
    if isOutside then if isSpace c then some s else none
    else if s.edition.isPlain c then some (s.push [c])
    else none
  | .referenceStart => if isOutside then none else s.goto (.reference [])
  | .tagStart => { s.flush with allowsDoctype := false }.goto (.tagName [])
  | .closingTagStart => if isOutside then none else s.flush.goto (.endName [])
  | .commentStart => s.flush.goto (.comment [])
  | .sectionStart => if isOutside then none else s.flush.goto (.characterData [])
  | .instructionStart => s.flush.goto (.target [])
  | .doctypeStart =>
    if s.allowsDoctype then { s with allowsDoctype := false }.goto (.subset .between) else none
  | .declarationStart | .sectionEnd => none
  | t => if isOutside then none else some (s.push t.spelling)

/-- The name of a reference in text. -/
def stepReference (s : Scanner) (name : List Char) (t : Token) : Step :=
  match t with
  | .referenceEnd =>
    match s.resolve? name.reverse with
    | some (.inl c) => (s.push [c]).goto .content
    | some (.inr text) =>
      { s with isBlank := s.isBlank && !s.run.isEmpty, pending := text }.goto .content
    | none => none
  | .character c => if isReferencePart name c then s.goto (.reference (c :: name)) else none
  | _ => none

/-- Inside a comment. -/
def stepComment (s : Scanner) (value : List Char) (t : Token) : Step :=
  match t with
  | .commentEnd => (s.place (.comment (String.ofList value.reverse))).goto .content
  | .character c => if s.edition.isLegal c then s.goto (.comment (c :: value)) else none
  | _ => none

/-- Inside a character-data section. -/
def stepCharacterData (s : Scanner) (value : List Char) (t : Token) : Step :=
  match t with
  | .sectionEnd =>
    { s.place (.characterData (String.ofList value.reverse)) with
      isBlank := s.isBlank && value.all isSpace }.goto .content
  | .character c => if s.edition.isLegal c then s.goto (.characterData (c :: value)) else none
  | _ => none

/-- A target that only a declaration may have. -/
def isReserved (target : List Char) : Bool := target.map Char.toLower == "xml".toList

/-- The target of an instruction, which is empty where white space comes first. -/
def stepTarget (s : Scanner) (value : List Char) (t : Token) : Step :=
  let target := value.reverse
  match t with
  | .instructionEnd =>
    if value.isEmpty || isReserved target then none
    else (s.place (.instruction (String.ofList target) none)).goto .content
  | .character c =>
    if (if value.isEmpty then isNameStart c else isNamePart c) then s.goto (.target (c :: value))
    else if isSpace c && !isReserved target &&
      isWithinLimit target then s.goto (.instruction target [])
    else none
  | _ => none

/-- Inside an instruction. -/
def stepInstruction (s : Scanner) (target value : List Char) (t : Token) : Step :=
  match t with
  | .instructionEnd =>
    let value := String.ofList value.reverse
    (s.place (.instruction (String.ofList target) (some value))).goto .content
  | .character c => if s.edition.isLegal c then s.goto (.instruction target (c :: value)) else none
  | t => s.goto (.instruction target (t.spelling.reverse ++ value))

end Scanner
end VersionedBucket.Markup
