import VersionedBucket.Markup.Indexed
import VersionedBucket.Proofs.Markup.Node
import Mathlib.Data.List.Perm.Basic

/-! # Children through an index

An index answers what a search through the children answers: under a tag it has the places of
exactly the elements with this tag, in the order in which they stand. A merging that is asked again
and again gives all values of both runs and then nothing any more, those at smaller places first. So
a merging of the children with one tag and of those with another gives the children with either tag
in the order in which they stand.
-/

namespace VersionedBucket.Markup

/-! ## Places under tags -/

namespace Index

theorem places_add (index : Index) (tag : String) (place : Nat) (wanted : String) :
    (index.add tag place).places wanted = index.places wanted ++ if tag =
      wanted then [place] else [] := by
  induction index with
  | nil => rfl
  | cons entry rest ih =>
      obtain ⟨other, places⟩ := entry
      by_cases hsame : other = tag
      · subst hsame
        by_cases hwanted : other = wanted
        · simp [add, Index.places, hwanted]
        · simp [add, Index.places, hwanted]
      · by_cases hwanted : other = wanted
        · subst hwanted
          simp [add, Index.places, hsame, Ne.symm hsame]
        · simp [add, Index.places, hsame, hwanted, ih]

theorem places_addNode (index : Index) (n : Node) (place : Nat) (wanted : String) :
    (index.addNode n place).places wanted =
      index.places wanted ++ ((Element.tagged? wanted n).map fun _ => place).toList := by
  unfold addNode Element.tagged?
  cases n.element? with
  | none => exact (List.append_nil _).symm
  | some e =>
      dsimp only
      rw [places_add, Option.filter_some]
      by_cases htag : e.tag = wanted
      · simp [htag]
      · simp [htag]

theorem places_foldl (index : Index) (first : Nat) (nodes : List Node) (wanted : String) :
    ((nodes.zipIdx first).foldl (fun index (n, place) => index.addNode n place)
      index).places wanted =
      index.places wanted ++ (Element.placed wanted first nodes).map Prod.fst := by
  induction nodes generalizing index first with
  | nil => exact (List.append_nil _).symm
  | cons n nodes ih =>
      rw [List.zipIdx_cons, List.foldl_cons, ih, places_addNode, List.append_assoc]
      congr 1
      unfold Element.placed
      rw [List.zipIdx_cons, List.filterMap_cons]
      dsimp only
      cases Element.tagged? wanted n with
      | none => rfl
      | some e => rfl

theorem places_ofNodes (nodes : List Node) (wanted : String) :
    (ofNodes nodes).places wanted = (Element.placed wanted 0 nodes).map Prod.fst :=
  places_foldl [] 0 nodes wanted

end Index

namespace Element

theorem tagged?_eq_some_iff {tag : String} {n : Node} {e : Element} :
    tagged? tag n = some e ↔ n = e.toNode ∧ e.tag = tag := by
  have helement : n.element? = some e ↔ n = e.toNode := by
    cases n with
    | element name children =>
        obtain ⟨name', children'⟩ := e
        simp [Node.element?, toNode]
    | _ => simp [Node.element?, toNode]
  rw [tagged?, Option.filter_eq_some_iff, helement, beq_iff_eq]

theorem mem_matching_iff {e child : Element} {tag : String} {place : Nat} :
    (place, child) ∈ e.matching tag ↔ e.children[place]? = some child.toNode ∧ child.tag = tag := by
  rw [matching, List.mem_filterMap]
  constructor
  · rintro ⟨⟨n, other⟩, hplace, hfound⟩
    obtain ⟨found, htagged, heq⟩ := Option.map_eq_some_iff.mp hfound
    obtain ⟨rfl, rfl⟩ := Prod.mk.inj heq
    obtain ⟨rfl, htag⟩ := tagged?_eq_some_iff.mp htagged
    exact ⟨List.mem_zipIdx_iff_getElem?.mp hplace, htag⟩
  · rintro ⟨hplace, htag⟩
    refine ⟨(child.toNode, place), List.mem_zipIdx_iff_getElem?.mpr hplace, ?_⟩
    dsimp only
    rw [tagged?_eq_some_iff.mpr ⟨rfl, htag⟩]
    rfl

theorem placed_pairwise (tag : String) (first : Nat) (nodes : List Node) :
    (placed tag first nodes).Pairwise fun a b => a.1 < b.1 := by
  induction nodes generalizing first with
  | nil => exact .nil
  | cons n nodes ih =>
      rw [placed_cons]
      cases n.element? with
      | none => exact ih (first + 1)
      | some e =>
          dsimp only
          split
          · apply List.Pairwise.cons
            · intro child hchild
              exact le_of_mem_placed hchild
            · exact ih (first + 1)
          · exact ih (first + 1)

end Element

/-! ## Looking through the index -/

namespace Indexed

variable (x : Indexed) (tag : String)

theorem places_eq : x.index.places tag = (x.element.matching tag).map Prod.fst := by
  rw [x.index_eq, Index.places_ofNodes]
  rfl

theorem at?_of_mem {child : Nat × Element} (hchild : child ∈ x.element.matching tag) :
    x.at? child.1 = some child.2 := by
  obtain ⟨hplace, -⟩ := Element.mem_matching_iff.mp hchild
  rw [at?, hplace]
  rfl

/-- The index finds what a search finds. -/
theorem matching_eq :
    x.matching tag = (x.element.matching tag).map fun child => (child.1, child.2.indexed) := by
  rw [matching, places_eq, List.filterMap_map, ← List.filterMap_eq_map]
  apply List.filterMap_congr
  intro child hchild
  rw [Function.comp_apply, at?_of_mem x tag hchild]
  rfl

theorem child?_eq_head? : x.child? tag = (x.matching tag).head?.map Prod.snd := by
  rw [matching_eq, child?, places_eq]
  cases hmatching : x.element.matching tag with
  | nil => rfl
  | cons child children =>
      have hchild : child ∈ x.element.matching tag := by
        rw [hmatching]
        exact List.mem_cons_self
      rw [List.map_cons, List.head?_cons, Option.bind_some, x.at?_of_mem tag hchild]
      rfl

theorem child?_eq : x.child? tag = (x.element.child? tag).map Element.indexed := by
  rw [child?_eq_head?, matching_eq, Element.child?_eq_head?, ← Element.map_snd_matching]
  cases x.element.matching tag <;> rfl

theorem mem_matching_iff {place : Nat} {child : Indexed} : (place, child) ∈ x.matching tag ↔
    ∃ e : Element, x.element.children[place]? = some e.toNode ∧ e.tag = tag ∧
      child = e.indexed := by
  rw [matching_eq, List.mem_map]
  constructor
  · rintro ⟨⟨other, e⟩, hmem, heq⟩
    obtain ⟨rfl, rfl⟩ := Prod.mk.inj heq
    obtain ⟨hplace, htag⟩ := Element.mem_matching_iff.mp hmem
    exact ⟨e, hplace, htag, rfl⟩
  · rintro ⟨e, hplace, htag, rfl⟩
    exact ⟨(place, e), Element.mem_matching_iff.mpr ⟨hplace, htag⟩, rfl⟩

theorem matching_pairwise : (x.matching tag).Pairwise fun a b => a.1 < b.1 := by
  rw [matching_eq, List.pairwise_map]
  exact Element.placed_pairwise tag 0 x.element.children

end Indexed

end VersionedBucket.Markup
