import VersionedBucket.Markup.Node

/-! # Writing documents

A tree as a document: the declaration, then the root without any indentation. Text escapes the two
angle brackets and the ampersand and nothing else. An element without children is one closed tag.
-/

namespace VersionedBucket.Markup

/-- The written form of a character of text. -/
def escape (c : Char) : List Char :=
  if c = '<' then "&lt;".toList
  else if c = '>' then "&gt;".toList
  else if c = '&' then "&amp;".toList
  else [c]

mutual

def Node.render : Node → List Char
  | .element tag [] => '<' :: tag.toList ++ " />".toList
  | .element tag (first :: rest) =>
    '<' :: tag.toList ++ '>' :: (first.render ++ Node.renderAll rest) ++
      '<' :: '/' :: tag.toList ++ ['>']
  | .text value => value.toList.flatMap escape
  | .characterData value => "<![CDATA[".toList ++ value.toList ++ "]]>".toList
  | .comment value => "<!--".toList ++ value.toList ++ "-->".toList
  | .instruction target none => '<' :: '?' :: target.toList ++ "?>".toList
  | .instruction target (some value) =>
    '<' :: '?' :: target.toList ++ ' ' :: value.toList ++ "?>".toList

def Node.renderAll : List Node → List Char
  | [] => []
  | n :: rest => n.render ++ Node.renderAll rest

end

/-- What every written document begins with. -/
def declarationText : String := "<?xml version=\"1.0\" encoding=\"UTF-8\"?>"

def Element.document (e : Element) : String :=
  declarationText ++ String.ofList e.toNode.render

end VersionedBucket.Markup
