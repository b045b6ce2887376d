import VersionedBucket.Markup.Token

/-! # From characters to tokens

A document is cut into tokens one character at a time. A character completes no token, one token,
or, when it shows that the characters before it were no mark after all, several. The cutting looks
at characters only: whether a token may stand where it does is not asked here.
-/

namespace VersionedBucket.Markup

/-- Where between tokens the next character stands. -/
inductive Lexer.Mode where
  | content
  | doctype
  /-- After a left angle bracket. -/
  | less
  /-- After a left angle bracket and an exclamation mark, with the characters since. -/
  | bang (seen : List Char)
  | slash
  | bracket
  | brackets
  | comment
  | commentHyphen
  | commentHyphens
  | section
  | sectionBracket
  | sectionBrackets
  | instruction
  | question
  | declaration
  | declarationQuoted (quote : Quote)
  deriving DecidableEq, Repr

/-- How far a document has been cut. -/
structure Lexer where
  mode : Lexer.Mode := .content
  /-- A document type has begun, and no right angle bracket outside its declarations
  has been met. -/
  inDoctype : Bool := false
  deriving DecidableEq, Repr

namespace Lexer

/-- Tokens and what comes after them. -/
abbrev Cut := List Token × Lexer

/-- Goes on in a mode after some tokens. -/
def cut (l : Lexer) (mode : Mode) (tokens : List Token) : Cut := (tokens, { l with mode })

/-- The mode outside of all marks. -/
def outer (l : Lexer) : Mode := if l.inDoctype then .doctype else .content

/-- A character of content. -/
def readContent (l : Lexer) (c : Char) : Cut :=
  if c = '<' then l.cut .less []
  else if c = '/' then l.cut .slash []
  else if c = ']' then l.cut .bracket []
  else l.cut .content [.ofContent c]

/-- A character of the document type outside its declarations. -/
def readDoctype (l : Lexer) (c : Char) : Cut :=
  if c = '<' then l.cut .less []
  else if c = '>' then ([.tagEnd], {})
  else l.cut .doctype [.ofDoctype c]

/-- A character outside of all marks. -/
def readOuter (l : Lexer) (c : Char) : Cut :=
  if l.inDoctype then l.readDoctype c else l.readContent c

/-- A character after others that turned out to be no mark. -/
def after (others : List Char) : Cut → Cut
  | (tokens, l) => (others.map .character ++ tokens, l)

/-- The character after a left angle bracket. -/
def readLess? (l : Lexer) (c : Char) : Option Cut :=
  if c = '?' then l.cut .instruction [.instructionStart]
  else if c = '/' then l.cut l.outer [.closingTagStart]
  else if c = '!' then l.cut (.bang []) []
  else if isSpace c ∨ isNamePart c then l.cut l.outer [.tagStart, .character c]
  else none

/-- A character of the word after an exclamation mark. -/
def readBang? (l : Lexer) (seen : List Char) (c : Char) : Option Cut :=
  let word := seen ++ [c]
  if word = "--".toList then l.cut .comment [.commentStart]
  else if word = "[CDATA[".toList then l.cut .section [.sectionStart]
  else if word =
    "DOCTYPE".toList then some ([.doctypeStart], { mode := .doctype, inDoctype := true })
  else if word.isPrefixOf "--".toList || word.isPrefixOf "[CDATA[".toList ||
      word.isPrefixOf "DOCTYPE".toList then
    l.cut (.bang word) []
  else if l.inDoctype && seen.isEmpty && (c == 'A' || c == 'E' || c == 'N') then
    l.cut .declaration [.declarationStart, .character c]
  else none

/-- A character of a declaration. -/
def readDeclaration? (l : Lexer) (c : Char) : Option Cut :=
  if c = '<' then none
  else if c = '>' then l.cut l.outer [.tagEnd]
  else if c = '"' then l.cut (.declarationQuoted .double) [.quote .double]
  else if c = '\'' then l.cut (.declarationQuoted .single) [.quote .single]
  else l.cut .declaration [.ofDoctype c]

/-- A character of an instruction. -/
def readInstruction (l : Lexer) (c : Char) : Cut :=
  if c = '?' then l.cut .question [] else l.cut .instruction [.ofInstruction c]

/-- One more character; none if the marks it belongs to cannot be completed. Two hyphens in a
comment can only end it. A section ends in content wherever it began. -/
def read? (l : Lexer) (c : Char) : Option Cut :=
  match l.mode with
  | .content => l.readContent c
  | .doctype => l.readDoctype c
  | .less => l.readLess? c
  | .bang seen => l.readBang? seen c
  | .slash => if c = '>' then l.cut l.outer [.emptyTagEnd] else after ['/'] (l.readOuter c)
  | .bracket => if c = ']' then l.cut .brackets [] else after [']'] (l.readContent c)
  | .brackets =>
    if c = '>' then l.cut .content [.sectionEnd]
    else if c = ']' then l.cut .brackets [.character ']']
    else after [']', ']'] (l.readContent c)
  | .comment => if c = '-' then l.cut .commentHyphen [] else l.cut .comment [.character c]
  | .commentHyphen =>
    if c = '-' then l.cut .commentHyphens [] else l.cut .comment [.character '-', .character c]
  | .commentHyphens => if c = '>' then l.cut l.outer [.commentEnd] else none
  | .section => if c = ']' then l.cut .sectionBracket [] else l.cut .section [.character c]
  | .sectionBracket =>
    if c = ']' then l.cut .sectionBrackets [] else l.cut .section [.character ']', .character c]
  | .sectionBrackets =>
    if c = '>' then l.cut .content [.sectionEnd]
    else if c = ']' then l.cut .sectionBrackets [.character ']']
    else l.cut .section [.character ']', .character ']', .character c]
  | .instruction => l.readInstruction c
  | .question =>
      if c = '>' then l.cut l.outer [.instructionEnd] else after ['?'] (l.readInstruction c)
  | .declaration => l.readDeclaration? c
  | .declarationQuoted quote =>
    if c = quote.char then l.cut .declaration [.quote quote]
    else l.cut (.declarationQuoted quote) [.character c]

end Lexer
end VersionedBucket.Markup
