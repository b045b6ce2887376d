import VersionedBucket.Markup.Lexer
import VersionedBucket.Markup.Name
import VersionedBucket.Markup.Node
import VersionedBucket.Markup.Reference

/-! # The state of a scanner

A document is read one token at a time. The scanner keeps the elements that are open, the text since
the last mark, and where in a mark it stands. A run of text that is white space is dropped, unless
it directly follows a character-data section with something in it, or an entity is referred to at
its beginning.
-/

namespace VersionedBucket.Markup

/-- An open element. Its children are kept with the last one first. -/
structure Frame where
  name : Name
  /-- The prefixes that are bound within it. -/
  spaces : List (List Char)
  children : List Node := []

/-- A tag whose end has not been read. -/
structure Tag where
  name : Name
  spaces : List (List Char)
  attributes : List Name := []

/-- An attribute whose value has not been read to its end. -/
structure Attribute where
  tag : Tag
  name : Name
  quote : Quote
  /-- The value so far, backwards. -/
  value : List Char := []

/-- An entity declaration whose value has not been read to its end. -/
structure EntityValue where
  name : List Char
  quote : Quote
  /-- The value so far, backwards. -/
  value : List Char := []

/-- Places within the document type. Collected characters are kept backwards. -/
inductive SubsetMode where
  | between
  | quoted (quote : Quote)
  | comment
  | keyword (value : List Char)
  | beforeName
  | beforeParameterName
  | name (value : List Char)
  | beforeValue (name : List Char)
  | value (entity : EntityValue)
  | valueAmpersand (entity : EntityValue)
  | valueNumber (entity : EntityValue) (digits : List Char)
  | valueParameter (entity : EntityValue) (name : List Char)
  | rest
  | parameter (name : List Char)

/-- Places in a document. Collected characters are kept backwards. -/
inductive Mode where
  | content
  | reference (name : List Char)
  | comment (value : List Char)
  | characterData (value : List Char)
  | target (value : List Char)
  | instruction (target : List Char) (value : List Char)
  | tagName (value : List Char)
  | tag (tag : Tag)
  | attributeName (tag : Tag) (value : List Char)
  | attributeEquals (tag : Tag) (name : Name)
  | attributeQuote (tag : Tag) (name : Name)
  | attributeValue (a : Attribute)
  | attributeReference (a : Attribute) (name : List Char)
  | attributeEnd (tag : Tag)
  | endName (value : List Char)
  | endTag (name : Name)
  | subset (mode : SubsetMode)

/-- What is known of a document in the middle of reading it. -/
structure Scanner where
  edition : Edition := .first
  lexer : Lexer := {}
  mode : Mode := .content
  /-- The open elements, the innermost first. -/
  frames : List Frame := []
  /-- The first element outside all others, once it is closed. -/
  root : Option Element := none
  /-- The text since the last mark, backwards. -/
  run : List Char := []
  /-- The text since the last mark is white space, and so is the section before it if there is one;
  no entity stands at its beginning. -/
  isBlank : Bool := true
  /-- The document's own entities; names of parameter entities begin with a percent sign. -/
  entities : List (List Char × List Char) := []
  /-- A document type may still come. -/
  allowsDoctype : Bool := true
  /-- The text of an entity that is to be read before anything else. -/
  pending : List Char := []

namespace Scanner

/-- What a token leads to; nothing if the document is not well-formed. -/
abbrev Step := Option Scanner

/-- Goes on in another mode. -/
def goto (s : Scanner) (mode : Mode) : Step := some { s with mode }

/-- Adds a node where the scanner stands. Outside all elements only the first element is kept. -/
def place (s : Scanner) (n : Node) : Scanner :=
  match s.frames with
  | f :: outer => { s with frames := { f with children := n :: f.children } :: outer }
  | [] => { s with root := s.root <|> n.element? }

/-- Ends a run of text. -/
def flush (s : Scanner) : Scanner :=
  let cleared := { s with run := [], isBlank := true }
  if s.run.isEmpty || s.isBlank then cleared
  else cleared.place (.text (String.ofList s.run.reverse))

/-- Adds characters of text. -/
def push (s : Scanner) (cs : List Char) : Scanner :=
  { s with run := cs.reverse ++ s.run, isBlank := s.isBlank && cs.all isSpace }

/-- What a name of an entity stands for: a character, or the text of an entity. -/
def resolve? (s : Scanner) (name : List Char) : Option (Char ⊕ List Char) :=
  match name with
  | '#' :: _ => (referent? s.edition name).map .inl
  | _ =>
    match referent? s.edition name with
    | some c => some (.inl c)
    | none => (s.entities.lookup name).map .inr

end Scanner
end VersionedBucket.Markup
