import VersionedBucket.Markup.Declaration
import VersionedBucket.Markup.Scanner.Content
import VersionedBucket.Markup.Scanner.Subset
import VersionedBucket.Markup.Scanner.Tag

/-! # Reading documents

A character either moves the scanner on or shows that the document is not well-formed. A reference
to an entity of the document's own can do more: it puts the entity's text in front of what is still
to be read.
-/

namespace VersionedBucket.Markup

namespace Scanner

/-- One token. -/
def step (s : Scanner) (t : Token) : Step :=
  match s.mode with
  | .content => s.stepContent t
  | .reference name => s.stepReference name t
  | .comment value => s.stepComment value t
  | .characterData value => s.stepCharacterData value t
  | .target value => s.stepTarget value t
  | .instruction target value => s.stepInstruction target value t
  | .tagName value => s.stepTagName value t
  | .tag tag => s.stepTag tag t
  | .attributeName tag value => s.stepAttributeName tag value t
  | .attributeEquals tag name => s.stepAttributeEquals tag name t
  | .attributeQuote tag name => s.stepAttributeQuote tag name t
  | .attributeValue a => s.stepAttributeValue a t
  | .attributeReference a name => s.stepAttributeReference a name t
  | .attributeEnd tag => s.stepTagEnd tag t
  | .endName value => s.stepEndName value t
  | .endTag name => s.stepEndTag name t
  | .subset mode => s.stepSubset t mode

/-- One character. -/
def take (s : Scanner) (c : Char) : Step :=
  match s.lexer.read? c with
  | some (tokens, lexer) => tokens.foldlM step { s with lexer }
  | none => none

/-- How many entities may be replaced before the document itself has to go on. Entities without text
do not count. -/
def replacementLimit : Nat := 10

/-- How much text may still wait to be read when an entity is replaced. -/
def waitingLimit : Nat := 1000000

/-- Reads characters, within which at most `budget` entities are replaced. -/
def readReplacing (s : Scanner) (budget : Nat) : List Char → Option Scanner
  | [] => some s
  | c :: rest =>
    match s.take c with
    | none => none
    | some s =>
      if s.pending.isEmpty then s.readReplacing budget rest
      else
        match budget with
        | 0 => none
        | budget + 1 =>
          if rest.length ≤ waitingLimit then
            { s with pending := [] }.readReplacing budget (s.pending ++ rest)
          else none
  termination_by text => (budget, text.length)

/-- Reads a character of the document and all that it is replaced by. -/
def read (s : Scanner) (c : Char) : Option Scanner := s.readReplacing replacementLimit [c]

def readAll (s : Scanner) : List Char → Option Scanner
  | [] => some s
  | c :: rest => (s.read c).bind (·.readAll rest)

/-- The root of a document that is read to its end: everything is closed and there is an element. -/
def finish? (s : Scanner) : Option Element :=
  match s.lexer.mode, s.mode, s.frames with
  | .content, .content, [] => s.root
  | _, _, _ => none

end Scanner

/-- The root of a document, if it is well-formed. -/
def Element.ofDocument? (bs : List UInt8) : Option Element := do
  let (edition, cs) ← characters bs
  let s ← ({ edition : Scanner }).readAll cs
  s.finish?

end VersionedBucket.Markup
