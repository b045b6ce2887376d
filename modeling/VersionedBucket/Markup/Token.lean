import VersionedBucket.Markup.Character

/-! # Tokens of a document

The marks of a document and the single characters between them. What a mark means depends on where
it stands, so the same token can open a tag in one place and be plain text in another; then its
spelling counts.
-/

namespace VersionedBucket.Markup

/-- The two characters that can quote a value. -/
inductive Quote where
  | single
  | double
  deriving DecidableEq, Repr

def Quote.char : Quote → Char
  | .single => '\''
  | .double => '"'

/-- A mark, or one character that is part of none. -/
inductive Token where
  | instructionStart
  | instructionEnd
  | doctypeStart
  /-- The beginning of a declaration within the document type, without the name of its kind. -/
  | declarationStart
  | tagStart
  | closingTagStart
  | tagEnd
  | emptyTagEnd
  | commentStart
  | commentEnd
  | sectionStart
  | sectionEnd
  | equals
  | quote (q : Quote)
  | referenceStart
  | referenceEnd
  | character (c : Char)
  deriving DecidableEq, Repr

namespace Token

/-- How a token is spelled where it has no meaning of its own. -/
def spelling : Token → List Char
  | instructionStart => "<?".toList
  | instructionEnd => "?>".toList
  | doctypeStart => "<!DOCTYPE".toList
  | declarationStart => "<!".toList
  | tagStart => ['<']
  | closingTagStart => "</".toList
  | tagEnd => ['>']
  | emptyTagEnd => "/>".toList
  | commentStart => "<!--".toList
  | commentEnd => "-->".toList
  | sectionStart => "<![CDATA[".toList
  | sectionEnd => "]]>".toList
  | equals => ['=']
  | quote q => [q.char]
  | referenceStart => ['&']
  | referenceEnd => [';']
  | character c => [c]

/-- A character of the document type by itself, where equals signs and slashes are no marks. -/
def ofDoctype (c : Char) : Token :=
  if c = '>' then tagEnd
  else if c = '&' then referenceStart
  else if c = ';' then referenceEnd
  else if c = '"' then quote .double
  else if c = '\'' then quote .single
  else character c

/-- A character of content by itself. -/
def ofContent (c : Char) : Token := if c = '=' then equals else ofDoctype c

/-- A character of an instruction by itself. Here a tag begins at once, whatever follows. -/
def ofInstruction (c : Char) : Token :=
  if c = '<' then tagStart else if c = '/' then closingTagStart else ofContent c

end Token
end VersionedBucket.Markup
