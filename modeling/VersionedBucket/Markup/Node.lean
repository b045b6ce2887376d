import VersionedBucket.Text.Blank

/-! # Document trees

The tree of a markup document as listings use it: elements with a tag, and pieces of text.
Attributes and name spaces are not part of it. A reader of a listing asks an element for its
children by tag and for their text; where a tag occurs several times the first counts.
-/

namespace VersionedBucket.Markup

/-- A piece of a document. -/
inductive Node where
  | element (tag : String) (children : List Node)
  | text (value : String)
  /-- Text that was written in a character-data section. -/
  | characterData (value : String)
  | comment (value : String)
  | instruction (target : String) (value : Option String)
  deriving Repr, Inhabited

/-- An element by itself. -/
structure Element where
  tag : String
  children : List Node
  deriving Repr, Inhabited

/-- Why an element is not the one that was expected. -/
inductive Fault where
  | unexpectedRoot (found expected : String)
  | missing (tag : String)
  deriving DecidableEq, Repr

def Fault.message : Fault → String
  | .unexpectedRoot found expected =>
      "unexpected root <" ++ found ++ ">, expected <" ++ expected ++ ">"
  | .missing tag => "<" ++ tag ++ "> tag not found"

namespace Node

/-- The element that a node is. -/
def element? : Node → Option Element
  | .element tag children => some ⟨tag, children⟩
  | _ => none

/-- The text that a node adds to its parent. -/
def ownText : Node → String
  | .text value => value
  | .characterData value => value
  | _ => ""

end Node

namespace Element

def toNode (e : Element) : Node := .element e.tag e.children

/-- The text of an element: its own pieces joined, whatever stands between them. -/
def text (e : Element) : String := String.join (e.children.map Node.ownText)

/-- The element that a node is, if it has a tag. -/
def tagged? (tag : String) (n : Node) : Option Element := n.element?.filter (·.tag == tag)

/-- The first child with a tag. -/
def child? (e : Element) (tag : String) : Option Element := e.children.findSome? (tagged? tag)

/-- The children with a tag, each with its place among all children. -/
def matching (e : Element) (tag : String) : List (Nat × Element) :=
  e.children.zipIdx.filterMap fun (n, place) => (tagged? tag n).map (place, ·)

/-- The text of the first child with a tag; empty if the child has none. -/
def childText? (e : Element) (tag : String) : Option String := (e.child? tag).map text

/-- The text of the first child with a tag, if there is any. -/
def childContent? (e : Element) (tag : String) : Option String :=
  (e.childText? tag).filter fun s => !s.isEmpty

/-- The text of the first child with a tag, which has to be there. -/
def childText (e : Element) (tag : String) : Except Fault String :=
  match e.childText? tag with
  | some s => .ok s
  | none => .error (.missing tag)

/-- An element that holds only a text. Text made of blanks alone goes into a character-data section,
where readers do not drop it; an empty text leaves the element without children. -/
def leaf (tag text : String) : Element :=
  { tag
    children :=
      if text.isEmpty then []
      else if text.toList.all Text.isBlank then [.characterData text]
      else [.text text] }

/-- An element that holds other elements. -/
def branch (tag : String) (children : List Element) : Element :=
  { tag, children := children.map toNode }

end Element

/-- Two runs of placed values merged by place; at one place the second run comes first. -/
def merge {α : Type} : List (Nat × α) → List (Nat × α) → List α
  | [], right => right.map (·.2)
  | left, [] => left.map (·.2)
  | (i, x) :: left, (j, y) :: right =>
    if i < j then x :: merge left ((j, y) :: right) else y :: merge ((i, x) :: left) right
  termination_by left right => left.length + right.length

end VersionedBucket.Markup
