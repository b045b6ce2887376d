import VersionedBucket.Proofs.Markup.Node

/-! # Trees with attributes

The nodes of a document with everything that may stand there, and what is left of them in a tree.
What is selected by tag goes through the nodes one by one, so it can be followed through lists that
are put together or cut down.
-/

namespace VersionedBucket.Markup

/-- A node as it stands in a document, with its attributes. -/
inductive Annotated where
  | element (tag : String) (attributes : List (String × String)) (children : List Annotated)
  | text (value : String)
  | characterData (value : String)
  | comment (value : String)
  | instruction (target : String) (value : Option String)

namespace Annotated

mutual

/-- The node without its attributes, which is all that is read. -/
def bare : Annotated → Node
  | .element tag _ children => .element tag (bares children)
  | .text value => .text value
  | .characterData value => .characterData value
  | .comment value => .comment value
  | .instruction target value => .instruction target value

def bares : List Annotated → List Node
  | [] => []
  | n :: rest => n.bare :: bares rest

end

/-- The root of a document, with its attributes. -/
structure Root where
  tag : String
  attributes : List (String × String) := []
  children : List Annotated

def Root.bare (x : Root) : Element := ⟨x.tag, bares x.children⟩

def tag? : Annotated → Option String
  | .element tag _ _ => some tag
  | _ => none

/-- The nodes that are elements with some of all tags. -/
def having (p : String → Bool) (nodes : List Annotated) : List Annotated :=
  nodes.filter fun n => n.tag?.any p

/-- The elements with some of all tags. -/
def selected (p : String → Bool) (nodes : List Annotated) : List Element :=
  (Node.elements (bares nodes)).filter fun e => p e.tag

/-- The text that the nodes have together. -/
def joined (nodes : List Annotated) : String := String.join ((bares nodes).map Node.ownText)

section Selected

variable {p : String → Bool} {n : Annotated} {tag : String} {attributes : List (String × String)}
  {children before after : List Annotated}

theorem selected_cons_element : selected p (.element tag attributes children :: after) =
    if p tag then ⟨tag, bares children⟩ :: selected p after else selected p after := by
  rw [selected, bares, bare, Element.elements_cons]
  exact List.filter_cons

theorem selected_cons_of_none (hnone : n.tag? = none) :
    selected p (n :: after) = selected p after := by
  cases n with
  | element tag attributes children => cases hnone
  | _ => rfl

theorem bares_append : bares (before ++ after) = bares before ++ bares after := by
  induction before with
  | nil => rfl
  | cons n before ih => exact congrArg (n.bare :: ·) ih

theorem selected_append : selected p (before ++ after) = selected p before ++ selected p after := by
  rw [selected, bares_append, Node.elements, List.filterMap_append, List.filter_append]
  rfl

theorem joined_append : joined (before ++ after) = joined before ++ joined after := by
  rw [joined, bares_append, List.map_append, String.join_append]
  rfl

theorem joined_cons : joined (n :: after) = n.bare.ownText ++ joined after := String.join_cons

/-- What is selected depends on nothing else than the nodes with the tags. -/
theorem selected_having (nodes : List Annotated) :
    selected p (having p nodes) = selected p nodes := by
  induction nodes with
  | nil => rfl
  | cons n nodes ih =>
      have hhaving : having p (n :: nodes) =
          if n.tag?.any p then n :: having p nodes else having p nodes :=
        List.filter_cons
      rw [hhaving]
      cases n with
      | element tag attributes children =>
          rw [selected_cons_element, ← ih]
          show selected p (if p tag then _ else _) = _
          split
          next htag => rw [selected_cons_element, if_pos htag]
          next => rfl
      | _ =>
          rw [selected_cons_of_none rfl]
          exact ih

end Selected

end Annotated

end VersionedBucket.Markup
