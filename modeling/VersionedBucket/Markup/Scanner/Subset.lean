import VersionedBucket.Markup.Scanner.Basic

/-! # Scanning the document type

All that counts in a document type are the entities it declares. Other declarations are passed over.
-/

namespace VersionedBucket.Markup

namespace Scanner

/-- Declares an entity. The first declaration of a name counts. -/
def declare (s : Scanner) (name value : List Char) : Scanner :=
  if (s.entities.lookup name).isSome then s
  else { s with entities := (name, value) :: s.entities }

/-- Goes on within the document type. -/
def within (s : Scanner) (mode : SubsetMode) : Step := s.goto (.subset mode)

/-- Between declarations everything is passed over except quoted text, marks and references
to parameter entities. -/
def stepBetween (s : Scanner) (t : Token) : Step :=
  match t with
  | .tagEnd => s.goto .content
  | .declarationStart => s.within (.keyword [])
  | .commentStart => s.within .comment
  | .quote quote => s.within (.quoted quote)
  | .sectionStart | .sectionEnd => none
  | .character c => s.within (if c = '%' then .parameter [] else .between)
  | _ => s.within .between

/-- The kind of a declaration, up to white space. -/
def stepKeyword (s : Scanner) (value : List Char) (t : Token) : Step :=
  match t with
  | .character c =>
    if 'A' ≤ c ∧ c ≤ 'Z' then s.within (.keyword (c :: value))
    else if !isSpace c then none
    else if value.reverse = "ENTITY".toList then s.within .beforeName
    else if ["ELEMENT".toList, "ATTLIST".toList, "NOTATION".toList].contains value.reverse then
      s.within .rest
    else none
  | _ => none

/-- Up to the name of an entity, before which there is a percent sign if it is
a parameter entity. -/
def stepEntityName (s : Scanner) (mode : SubsetMode) (start : List Char) (c : Char) : Step :=
  if isSpace c then s.within mode
  else if isNameStart c then s.within (.name (c :: start))
  else none

/-- Before the value of an entity. An entity that is kept elsewhere has no text. -/
def stepBeforeValue (s : Scanner) (name : List Char) (t : Token) : Step :=
  match t with
  | .quote quote => s.within (.value { name, quote })
  | .character c =>
    if isSpace c then s.within (.beforeValue name)
    else if c = 'S' ∨ c = 'P' then (s.declare name []).within .rest
    else none
  | _ => none

/-- Inside the value of an entity. -/
def stepEntityValue (s : Scanner) (e : EntityValue) (t : Token) : Step :=
  match t with
  | .quote _ => (s.declare e.name e.value.reverse).within .rest
  | .character c =>
    if c = '&' then s.within (.valueAmpersand e)
    else if c = '%' then s.within (.valueParameter e [])
    else if s.edition.isLegal c then s.within (.value { e with value := c :: e.value })
    else none
  | _ => none

/-- The name of a reference to a parameter entity: one more character of it, or its end. -/
def stepParameter (s : Scanner) (name : List Char) (t : Token) (more : List Char → Step)
    (done : List Char → Step) : Step :=
  if t = .referenceEnd ∨ t = .character ';' then s.entities.lookup ('%' :: name.reverse) >>= done
  else
    match t with
    | .character c => if isNamePart c then more (c :: name) else none
    | _ => none

/-- One token of the document type. References by number are replaced within the value of an
entity, references by name are left to where the entity is used. -/
def stepSubset (s : Scanner) (t : Token) : SubsetMode → Step
  | .between => s.stepBetween t
  | .quoted quote => s.within (if t = .quote quote then .between else .quoted quote)
  | .comment => s.within (if t = .commentEnd then .between else .comment)
  | .keyword value => s.stepKeyword value t
  | .beforeName =>
    match t with
    | .character '%' => s.within .beforeParameterName
    | .character c => s.stepEntityName .beforeName [] c
    | _ => none
  | .beforeParameterName =>
    match t with
    | .character c => s.stepEntityName .beforeParameterName ['%'] c
    | _ => none
  | .name value =>
    match t with
    | .character c =>
      if isNamePart c then s.within (.name (c :: value))
      else if isSpace c && isWithinLimit value.reverse then s.within (.beforeValue value.reverse)
      else none
    | _ => none
  | .beforeValue name => s.stepBeforeValue name t
  | .value e => s.stepEntityValue e t
  | .valueAmpersand e =>
    match t with
    | .character '#' => s.within (.valueNumber e [])
    | .character c =>
      if s.edition.isLegal c then s.within (.value { e with value := c :: '&' :: e.value })
      else none
    | _ => none
  | .valueNumber e digits =>
    match t with
    | .character ';' => do
      let d ← numbered? s.edition digits.reverse
      s.within (.value { e with value := d :: e.value })
    | .character c => if s.edition.isLegal c then s.within (.valueNumber e (c :: digits)) else none
    | _ => none
  | .valueParameter e name =>
    s.stepParameter name t (fun name => s.within (.valueParameter e name)) fun text =>
      s.within (.value { e with value := text.reverse ++ e.value })
  | .rest => s.within (if t = .tagEnd then .between else .rest)
  | .parameter name =>
    s.stepParameter name t (fun name => s.within (.parameter name)) fun text =>
      { s with pending := text }.within .between

end Scanner
end VersionedBucket.Markup
