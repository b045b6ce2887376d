import VersionedBucket.Markup.Node

/-! # Elements with an index

How children are found and merged without a search through all of them each time. An index keeps the
places of the elements among the children under their tags. A merging of two runs of placed values
gives one value after the other and remembers only how many it has given of either run.
-/

namespace VersionedBucket.Markup

/-- Places under tags: every tag once, its places in the order in which they were added. -/
abbrev Index := List (String × List Nat)

namespace Index

/-- The places under a tag. -/
def places : Index → String → List Nat
  | [], _ => []
  | (tag, places) :: rest, wanted => if tag = wanted then places else Index.places rest wanted

/-- Adds a place behind those under a tag. -/
def add (tag : String) (place : Nat) : Index → Index
  | [] => [(tag, [place])]
  | (other, places) :: rest =>
    if other = tag then (other, places ++ [place]) :: rest
    else (other, places) :: Index.add tag place rest

/-- Adds the place of a node that is an element. -/
def addNode (index : Index) (n : Node) (place : Nat) : Index :=
  match n.element? with
  | some e => index.add e.tag place
  | none => index

/-- The index of the elements among nodes. -/
def ofNodes (nodes : List Node) : Index :=
  nodes.zipIdx.foldl (fun index (n, place) => index.addNode n place) []

end Index

/-- An element with the index of its children. -/
structure Indexed where
  element : Element
  index : Index
  index_eq : index = Index.ofNodes element.children

def Element.indexed (e : Element) : Indexed := ⟨e, Index.ofNodes e.children, rfl⟩

namespace Indexed

/-- The element at a place among all children. -/
def at? (x : Indexed) (place : Nat) : Option Element :=
  x.element.children[place]?.bind Node.element?

/-- The first child with a tag. -/
def child? (x : Indexed) (tag : String) : Option Indexed :=
  (x.index.places tag).head?.bind fun place => (x.at? place).map Element.indexed

/-- The children with a tag, each with its place among all children. -/
def matching (x : Indexed) (tag : String) : List (Nat × Indexed) :=
  (x.index.places tag).filterMap fun place => (x.at? place).map fun child => (place, child.indexed)

end Indexed

/-- Two runs of placed values that are being merged. -/
structure Merging (α : Type) where
  left : List (Nat × α)
  right : List (Nat × α)
  /-- How many values of the left run have been given. -/
  leftGiven : Nat := 0
  /-- How many values of the right run have been given. -/
  rightGiven : Nat := 0

/-- The next value, if there is one, and the merging behind it. At one place the right
run comes first. -/
def Merging.next {α : Type} (m : Merging α) : Option α × Merging α :=
  let pastLeft := { m with leftGiven := m.leftGiven + 1 }
  let pastRight := { m with rightGiven := m.rightGiven + 1 }
  match m.left[m.leftGiven]?, m.right[m.rightGiven]? with
  | some (i, x), some (j, y) => if i < j then (some x, pastLeft) else (some y, pastRight)
  | some (_, x), none => (some x, pastLeft)
  | none, some (_, y) => (some y, pastRight)
  | none, none => (none, m)

end VersionedBucket.Markup
