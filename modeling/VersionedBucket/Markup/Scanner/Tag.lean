import VersionedBucket.Markup.Scanner.Basic

/-! # Scanning tags

Attributes are checked and dropped: a name occurs once in a tag, a value is quoted and complete.
Name spaces are dropped as soon as the prefixes in a tag are known to be bound, so a tree has local
names only; a closing tag still has to repeat the prefix of the opening one.
-/

namespace VersionedBucket.Markup

namespace Scanner

/-- The prefixes that are bound everywhere. -/
def reservedSpaces : List (List Char) := ["xml".toList, "xmlns".toList]

/-- The prefixes that are bound where the scanner stands. -/
def spaces (s : Scanner) : List (List Char) :=
  match s.frames with
  | f :: _ => f.spaces
  | [] => reservedSpaces

/-- A tag of a name, at its beginning. -/
def tag? (s : Scanner) (value : List Char) : Option Tag := do
  let name ← Name.ofChars? value.reverse
  if name.space.any (reservedSpaces.contains ·) then none
  else some { name, spaces := s.spaces }

/-- All prefixes in a tag are bound. -/
def isBound (t : Tag) : Bool :=
  (t.name :: t.attributes).all fun name => name.space.all (t.spaces.contains ·)

/-- The end of an opening tag. -/
def openTag (s : Scanner) (tag : Tag) : Step :=
  if isBound tag then
    { s with frames := { name := tag.name, spaces := tag.spaces } :: s.frames }.goto .content
  else none

/-- The end of a tag that is its own closing tag. -/
def placeTag (s : Scanner) (tag : Tag) : Step :=
  if isBound tag then (s.place (.element (String.ofList tag.name.base) [])).goto .content else none

/-- The end of a closing tag. -/
def closeTag (s : Scanner) (name : Name) : Step :=
  match s.frames with
  | f :: outer =>
    if f.name = name then
      let element := .element (String.ofList name.base) f.children.reverse
      ({ s with frames := outer }.place element).goto .content
    else none
  | [] => none

/-- The end of a tag, or white space before it. -/
def stepTagEnd (s : Scanner) (tag : Tag) (t : Token) : Step :=
  match t with
  | .tagEnd => s.openTag tag
  | .emptyTagEnd => s.placeTag tag
  | .character c => if isSpace c then s.goto (.tag tag) else none
  | _ => none

/-- A name as far as it goes on: the next character of it, or what it leads to with its end. -/
def stepName (value : List Char) (t : Token) (more : List Char → Step) (done : Step) : Step :=
  match t with
  | .character c =>
    if (if value.isEmpty then isNameStart c else isNamePart c) then more (c :: value) else done
  | _ => done

/-- The name of an opening tag. -/
def stepTagName (s : Scanner) (value : List Char) (t : Token) : Step :=
  stepName value t (fun value => s.goto (.tagName value)) do s.stepTagEnd (← s.tag? value) t

/-- Between the attributes of a tag. -/
def stepTag (s : Scanner) (tag : Tag) (t : Token) : Step :=
  stepName [] t (fun value => s.goto (.attributeName tag value)) (s.stepTagEnd tag t)

/-- Between the name of an attribute and its equals sign. -/
def stepAttributeEquals (s : Scanner) (tag : Tag) (name : Name) (t : Token) : Step :=
  match t with
  | .equals => s.goto (.attributeQuote tag name)
  | .character c => if isSpace c then s.goto (.attributeEquals tag name) else none
  | _ => none

/-- The name of an attribute. -/
def stepAttributeName (s : Scanner) (tag : Tag) (value : List Char) (t : Token) : Step :=
  stepName value t (fun value => s.goto (.attributeName tag value)) do
    let name ← Name.ofChars? value.reverse
    if tag.attributes.contains name then none else s.stepAttributeEquals tag name t

/-- Between an equals sign and the value. -/
def stepAttributeQuote (s : Scanner) (tag : Tag) (name : Name) (t : Token) : Step :=
  match t with
  | .quote quote => s.goto (.attributeValue { tag, name, quote })
  | .character c => if isSpace c then s.goto (.attributeQuote tag name) else none
  | _ => none

/-- The name space that the prefix `xml` stands for, and no other prefix may. -/
def xmlSpace : List Char := "http://www.w3.org/XML/1998/namespace".toList

/-- The name space of name-space declarations. -/
def declarationSpace : List Char := "http://www.w3.org/2000/xmlns/".toList

/-- A tag with one more attribute, which may be the declaration of a name space. -/
def withAttribute? (tag : Tag) (name : Name) (value : List Char) : Option Tag :=
  let xml := "xml".toList
  let xmlns := "xmlns".toList
  if name.space = some xmlns then
    if name.base = xmlns ∨ (name.base = xml ∧ value ≠ xmlSpace) ∨ value.isEmpty then none
    else some { tag with spaces := name.base :: tag.spaces }
  else if name = ⟨none, xmlns⟩ then
    if [xml, xmlns, xmlSpace, declarationSpace].contains value then none else some tag
  else some { tag with attributes := name :: tag.attributes }

/-- Inside the value of an attribute. No tag and no instruction may begin in it; all other marks,
complete as they are, belong to the value. -/
def stepAttributeValue (s : Scanner) (a : Attribute) (t : Token) : Step :=
  match t with
  | .tagStart | .instructionStart => none
  | .referenceStart => s.goto (.attributeReference a [])
  | .character c =>
    if s.edition.isPlain c then s.goto (.attributeValue { a with value := c :: a.value }) else none
  | t =>
    if t = .quote a.quote then do
      s.goto (.attributeEnd (← withAttribute? a.tag a.name a.value.reverse))
    else s.goto (.attributeValue { a with value := t.spelling.reverse ++ a.value })

/-- The name of a reference in a value. The text of an entity is taken as it is. -/
def stepAttributeReference (s : Scanner) (a : Attribute) (name : List Char) (t : Token) : Step :=
  match t with
  | .referenceEnd =>
    match s.resolve? name.reverse with
    | some (.inl c) => s.goto (.attributeValue { a with value := c :: a.value })
    | some (.inr text) => s.goto (.attributeValue { a with value := text.reverse ++ a.value })
    | none => none
  | .character c =>
      if isReferencePart name c then s.goto (.attributeReference a (c :: name)) else none
  | _ => none

/-- The end of a closing tag, before which there may be white space. -/
def stepEndTag (s : Scanner) (name : Name) (t : Token) : Step :=
  match t with
  | .tagEnd => s.closeTag name
  | .character c => if isSpace c then s.goto (.endTag name) else none
  | _ => none

/-- The name of a closing tag. -/
def stepEndName (s : Scanner) (value : List Char) (t : Token) : Step :=
  stepName value t (fun value => s.goto (.endName value)) do
    s.stepEndTag (← Name.ofChars? value.reverse) t

end Scanner
end VersionedBucket.Markup
