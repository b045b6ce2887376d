import VersionedBucket.Markup.Node

/-! # Looking into trees

What an element says of its children and its text. Only the elements among its children count: the
first child with a tag is the first of them with it, and the children with one of two tags come in
the order in which they stand, whatever stands between them. An element that was put together from
leaves and branches holds the texts it was made from.
-/

namespace VersionedBucket.Markup

/-- The elements among nodes, in the order in which they stand. -/
def Node.elements (nodes : List Node) : List Element := nodes.filterMap element?

namespace Element

/-! ## Children by tag -/

theorem elements_branch (tag : String) (children : List Element) :
    Node.elements (branch tag children).children = children := by
  rw [Node.elements, branch, List.filterMap_map]
  exact List.filterMap_some

theorem child?_eq_find? (e : Element) (wanted : String) :
    e.child? wanted = (Node.elements e.children).find? (·.tag == wanted) := by
  rw [child?, Node.elements]
  induction e.children with
  | nil => rfl
  | cons n nodes ih =>
      rw [List.findSome?_cons, List.filterMap_cons, ih, tagged?]
      cases n.element? with
      | none => rfl
      | some child =>
          dsimp only
          rw [List.find?_cons, Option.filter_some]
          cases child.tag == wanted <;> rfl

/-- The children with a tag, in the order in which they stand. -/
def tagged (e : Element) (tag : String) : List Element :=
  (Node.elements e.children).filter (·.tag == tag)

/-- The texts that an element has under a tag, in the order in which they stand. -/
def texts (e : Element) (tag : String) : List String := (e.tagged tag).map text

theorem child?_eq_head? (e : Element) (tag : String) : e.child? tag = (e.tagged tag).head? := by
  rw [child?_eq_find?, tagged, List.head?_filter]

theorem childText?_eq_head? (e : Element) (tag : String) :
    e.childText? tag = (e.texts tag).head? := by
  rw [childText?, child?_eq_head?, texts, List.head?_map]

/-- The elements with a tag among nodes, each with its place, where the first node has
a given place. -/
def placed (tag : String) (first : Nat) (nodes : List Node) : List (Nat × Element) :=
  (nodes.zipIdx first).filterMap fun (n, place) => (tagged? tag n).map (place, ·)

theorem placed_cons (tag : String) (first : Nat) (n : Node) (nodes : List Node) :
    placed tag first (n :: nodes) = match n.element? with
      | none => placed tag (first + 1) nodes
      | some e => if e.tag == tag then (first, e) :: placed tag (first + 1) nodes
        else placed tag (first + 1) nodes := by
  rw [placed, List.zipIdx_cons, List.filterMap_cons]
  simp only [tagged?]
  cases n.element? with
  | none => rfl
  | some e =>
      simp only [Option.filter_some]
      cases e.tag == tag <;> rfl

theorem elements_cons (n : Node) (nodes : List Node) :
    Node.elements (n :: nodes) = match n.element? with
    | none => Node.elements nodes
    | some e => e :: Node.elements nodes := by
  rw [Node.elements, List.filterMap_cons]
  cases n.element? <;> rfl

theorem le_of_mem_placed {tag : String} {first : Nat} {nodes : List Node} {child : Nat × Element}
    (hchild : child ∈ placed tag first nodes) : first ≤ child.1 := by
  obtain ⟨⟨n, place⟩, hplace, hfound⟩ := List.mem_filterMap.mp hchild
  obtain ⟨e, _, rfl⟩ := Option.map_eq_some_iff.mp hfound
  exact List.le_snd_of_mem_zipIdx hplace

theorem map_snd_placed (tag : String) (first : Nat) (nodes : List Node) :
    (placed tag first nodes).map (·.2) = (Node.elements nodes).filter (·.tag == tag) := by
  induction nodes generalizing first with
  | nil => rfl
  | cons n nodes ih =>
      rw [placed_cons, elements_cons]
      cases n.element? with
      | none => exact ih (first + 1)
      | some e =>
          dsimp only
          rw [List.filter_cons]
          split
          · rw [List.map_cons, ih]
          · exact ih (first + 1)

theorem map_snd_matching (e : Element) (tag : String) : (e.matching tag).map (·.2) = e.tagged tag :=
  map_snd_placed tag 0 e.children

/-! ## Texts of what was built -/

/-- A leaf holds the text it was made from, however it is kept. -/
theorem text_leaf (tag value : String) : (leaf tag value).text = value := by
  unfold leaf text
  split
  next hempty => exact (String.isEmpty_iff.mp hempty).symm
  next =>
    split
    · exact String.empty_append
    · exact String.empty_append

theorem child?_branch (tag : String) (children : List Element) (wanted : String) :
    (branch tag children).child? wanted = children.find? (·.tag == wanted) := by
  rw [child?_eq_find?, elements_branch]

/-- The text of the first element with a tag. -/
def textOf? (wanted : String) (elements : List Element) : Option String :=
  (elements.find? (·.tag == wanted)).map text

theorem childText?_branch (tag : String) (children : List Element) (wanted : String) :
    (branch tag children).childText? wanted = textOf? wanted children := by
  rw [childText?, child?_branch, textOf?]

theorem textOf?_append (wanted : String) (first second : List Element) :
    textOf? wanted (first ++ second) = (textOf? wanted first).or (textOf? wanted second) := by
  simp only [textOf?, List.find?_append, Option.map_or]

theorem textOf?_leaf (wanted tag value : String) (rest : List Element) :
    textOf? wanted (leaf tag value :: rest) =
      if tag == wanted then some value else textOf? wanted rest := by
  have htag : (leaf tag value).tag = tag := rfl
  rw [textOf?, List.find?_cons, htag]
  cases tag == wanted with
  | true => exact congrArg some (text_leaf tag value)
  | false => rfl

/-- Elements of other tags do not matter. -/
theorem find?_tag_eq_none {elements : List Element} {wanted : String}
    (hother : ∀ e ∈ elements, e.tag ≠ wanted) :
    elements.find? (·.tag == wanted) = none :=
  List.find?_eq_none.mpr fun e he heq => hother e he (beq_iff_eq.mp heq)

theorem textOf?_eq_none {elements : List Element} {wanted : String}
    (hother : ∀ e ∈ elements, e.tag ≠ wanted) :
    textOf? wanted elements = none := by
  rw [textOf?, find?_tag_eq_none hother]
  rfl

end Element

section Merge

variable {α : Type} {place : Nat} {x : α} {left right : List (Nat × α)}

/-- What stands before everything in the second run comes first. -/
theorem merge_cons_left (hbefore : ∀ y ∈ right, place < y.1) :
    merge ((place, x) :: left) right = x :: merge left right := by
  cases right with
  | nil =>
      cases left with
      | nil => simp [merge]
      | cons y left => simp [merge]
  | cons y right =>
      rw [merge, if_pos (hbefore y List.mem_cons_self)]

/-- What stands before everything in the first run comes first. -/
theorem merge_cons_right (hbefore : ∀ y ∈ left, place < y.1) :
    merge left ((place, x) :: right) = x :: merge left right := by
  cases left with
  | nil => simp [merge]
  | cons y left =>
      rw [merge, if_neg (Nat.not_lt.mpr (Nat.le_of_lt (hbefore y List.mem_cons_self)))]

end Merge

/-- The elements with one or the other tag, in the order in which they stand. -/
theorem Element.merge_placed {first second : String} (hne : first ≠ second) (place : Nat)
    (nodes : List Node) :
    merge (placed first place nodes) (placed second place nodes) =
      (Node.elements nodes).filter fun e => e.tag == first || e.tag == second := by
  induction nodes generalizing place with
  | nil => simp [placed, merge, Node.elements]
  | cons n nodes ih =>
      have hbehind (tag : String) : ∀ y ∈ placed tag (place + 1) nodes, place < y.1 := fun y hy =>
        le_of_mem_placed hy
      rw [placed_cons, placed_cons, elements_cons]
      cases n.element? with
      | none => exact ih (place + 1)
      | some e =>
          dsimp only
          rw [List.filter_cons, ← ih (place + 1)]
          cases hfirst : e.tag == first with
          | true =>
              have hsecond : (e.tag == second) = false :=
                beq_false_of_ne fun heq => hne ((beq_iff_eq.mp hfirst).symm.trans heq)
              simp only [hsecond, Bool.false_eq_true, if_true, if_false, Bool.true_or]
              exact merge_cons_left (hbehind second)
          | false =>
              cases hsecond : e.tag == second with
              | true =>
                  simp only [Bool.false_eq_true, if_true, if_false, Bool.or_true]
                  exact merge_cons_right (hbehind first)
              | false => rfl

/-- The children with one or the other tag, in the order in which they stand. -/
theorem Element.merge_matching (e : Element) {first second : String} (hne : first ≠ second) :
    merge (e.matching first) (e.matching second) =
      (Node.elements e.children).filter fun e => e.tag == first || e.tag == second :=
  merge_placed hne 0 e.children

end VersionedBucket.Markup
