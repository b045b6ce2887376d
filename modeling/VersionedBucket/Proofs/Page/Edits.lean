import Mathlib.Logic.Relation
import VersionedBucket.Proofs.Markup.Annotated
import VersionedBucket.Proofs.Page.Grammar
import VersionedBucket.Proofs.Page.RoundTrip

/-! # What makes no difference in a document

Two documents that differ only in what is not read give the same page, or the same fault. What is
read depends on the place: of most elements that are read it is the first one with its tag, and of
entries and common prefixes it is each of them. A difference may lie at any depth, so an edit is
made where it is made, and what is shown of it is shown from the inside out.
-/

namespace VersionedBucket

open Markup Annotated

/-- The node is a piece of text, be it in a section or not. -/
inductive IsPiece (value : String) : Annotated → Prop where
  | text : IsPiece value (.text value)
  | characterData : IsPiece value (.characterData value)

/-- What an element is read as. -/
inductive Role where
  | root
  | entry
  | owner
  | common
  /-- Only the text counts. -/
  | leaf
  deriving DecidableEq

namespace Role

/-- The tags of entries. -/
def isEntryTag (tag : String) : Bool := tag == versionTag || tag == deleteMarkerTag

/-- What the children of an element are read as; none if they are not read. -/
def child? : Role → String → Option Role
  | .root, tag =>
    if tag ∈ Page.fieldTags then some .leaf
    else if isEntryTag tag then some .entry
    else if tag = "CommonPrefixes" then some .common
    else none
  | .entry, tag =>
    if tag ∈ ["Key", "VersionId", "IsLatest", "LastModified", "ETag", "Size",
      "StorageClass"] then some .leaf
    else if tag = "Owner" then some .owner
    else none
  | .owner, tag => if tag ∈ ["ID", "DisplayName"] then some .leaf else none
  | .common, tag => if tag = "Prefix" then some .leaf else none
  | .leaf, _ => none

/-- The tag is that of a single value, of which the first counts. -/
def IsSingle (role : Role) (tag : String) : Prop :=
  role.child? tag = some .leaf ∨ role.child? tag = some .owner

/-- The node is not read where it stands. -/
inductive Ignores (role : Role) : Annotated → Prop where
  | comment {value : String} : Ignores role (.comment value)
  | instruction {target : String} {value : Option String} : Ignores role (.instruction target value)
  | piece {value : String} {n : Annotated} (hpiece : IsPiece value n) (hbranch : role ≠ .leaf) :
      Ignores role n
  /-- An empty text adds nothing, wherever it stands. -/
  | empty {n : Annotated} (hpiece : IsPiece "" n) : Ignores role n
  | element {tag : String} {attributes : List (String × String)} {children : List Annotated}
      (hunread : role.child? tag = none) : Ignores role (.element tag attributes children)

end Role

/-- A change among the nodes of an element that makes no difference to what the element
is read as. -/
inductive Edit : Role → List Annotated → List Annotated → Prop where
  /-- Something that is not read is added. -/
  | unread {role : Role} {n : Annotated} (hignores : role.Ignores n)
      (before after : List Annotated) :
      Edit role (before ++ after) (before ++ n :: after)
  /-- A single value is given again behind the first time. -/
  | further {role : Role} {tag : String} {attributes attributes' : List (String × String)}
      {children children' : List Annotated} (hsingle : role.IsSingle tag)
      (before between after : List Annotated) :
      Edit role (before ++ .element tag attributes children :: (between ++ after))
        (before ++ .element tag attributes children ::
          (between ++ .element tag attributes' children' :: after))
  /-- The nodes are put in another order, but not elements with one tag and not entries. -/
  | reordered {role : Role} {nodes nodes' : List Annotated} (hbranch : role ≠ .leaf)
      (hperm : nodes.Perm nodes')
      (htags : ∀ tag, having (· == tag) nodes = having (· == tag) nodes')
      (hentries : having Role.isEntryTag nodes = having Role.isEntryTag nodes') :
        Edit role nodes nodes'
  /-- An element has other attributes. -/
  | attributes {role : Role} {tag : String} {attributes attributes' : List (String × String)}
      {children : List Annotated} (before after : List Annotated) :
      Edit role (before ++ .element tag attributes children :: after)
        (before ++ .element tag attributes' children :: after)
  /-- A text is split into two pieces. -/
  | split {s t : String} {whole first second : Annotated} (hwhole : IsPiece (s ++ t) whole)
      (hfirst : IsPiece s first)
      (hsecond : IsPiece t second) (before after : List Annotated) :
      Edit .leaf (before ++ whole :: after) (before ++ first :: second :: after)
  /-- Within an element that is read there is a change that makes no difference to what it
  is read as. -/
  | inside {role inner : Role} {tag : String} {attributes : List (String × String)}
      {children children' : List Annotated} (hchild : role.child? tag = some inner)
      (hedit : Edit inner children children') (before after : List Annotated) :
      Edit role (before ++ .element tag attributes children :: after)
        (before ++ .element tag attributes children' :: after)

/-- The elements are read as the same. -/
def Role.Agree : Role → Element → Element → Prop
  | .root, e, e' => Page.ofElement e = Page.ofElement e'
  | .entry, e, e' => ∀ coding, Version.ofElement coding e = Version.ofElement coding e'
  | .owner, e, e' => Owner.ofElement e = Owner.ofElement e'
  | .common, e, e' => ∀ coding, Page.commonPrefix coding e = Page.commonPrefix coding e'
  | .leaf, e, e' => e.text = e'.text

/-- The children that are read together, and what they are read as. -/
inductive Role.Reads : Role → (String → Bool) → Role → Prop where
  | leaf {role : Role} {tag : String} (hchild : role.child? tag = some .leaf) :
      Reads role (· == tag) .leaf
  | owner {role : Role} {tag : String} (hchild : role.child? tag = some .owner) :
      Reads role (· == tag) .owner
  | entries : Reads .root isEntryTag .entry
  | commons : Reads .root (· == "CommonPrefixes") .common

/-- Whatever is read among the nodes is read as the same. -/
structure Role.Alike (role : Role) (nodes nodes' : List Annotated) : Prop where
  text : role = .leaf → joined nodes = joined nodes'
  single : ∀ {tag : String} {inner : Role}, role.IsSingle tag → role.child? tag = some inner →
    Option.Rel inner.Agree (selected (· == tag) nodes).head? (selected (· == tag) nodes').head?
  entries : role = .root →
    List.Forall₂ Role.entry.Agree (selected isEntryTag nodes) (selected isEntryTag nodes')
  commons : role = .root →
    List.Forall₂ Role.common.Agree (selected (· == "CommonPrefixes") nodes)
      (selected (· == "CommonPrefixes") nodes')

namespace Role

variable {role inner : Role} {nodes nodes' : List Annotated} {tag : String}

theorem Agree.refl (role : Role) (e : Element) : role.Agree e e := by
  cases role with
  | entry => exact fun _ => rfl
  | common => exact fun _ => rfl
  | _ => exact rfl

theorem Agree.symm {e e' : Element} (hagree : role.Agree e e') : role.Agree e' e := by
  cases role with
  | entry => exact fun coding => (hagree coding).symm
  | common => exact fun coding => (hagree coding).symm
  | _ => exact Eq.symm hagree

theorem Agree.trans {e e' e'' : Element} (hfirst : role.Agree e e') (hsecond : role.Agree e' e'') :
    role.Agree e e'' := by
  cases role with
  | entry => exact fun coding => (hfirst coding).trans (hsecond coding)
  | common => exact fun coding => (hfirst coding).trans (hsecond coding)
  | _ => exact Eq.trans hfirst hsecond

theorem rel_refl (role : Role) (e? : Option Element) : Option.Rel role.Agree e? e? := by
  cases e? with
  | none => exact .none
  | some e => exact .some (.refl role e)

theorem forall₂_refl (role : Role) (elements : List Element) :
    List.Forall₂ role.Agree elements elements :=
  List.forall₂_same.mpr fun e _ => .refl role e

theorem rel_head? {related : Element → Element → Prop} {elements elements' : List Element}
    (hall : List.Forall₂ related elements elements') :
    Option.Rel related elements.head? elements'.head? := by
  cases hall with
  | nil => exact .none
  | cons hfirst _ => exact .some hfirst

theorem Reads.child?_eq {p : String → Bool} (hreads : role.Reads p inner) (htag : p tag = true) :
    role.child? tag = some inner := by
  cases hreads with
  | leaf hchild => exact beq_iff_eq.mp htag ▸ hchild
  | owner hchild => exact beq_iff_eq.mp htag ▸ hchild
  | entries =>
      have hfield : tag ∉ Page.fieldTags := by
        rcases Bool.or_eq_true_iff.mp htag with heq | heq
        · exact beq_iff_eq.mp heq ▸ by decide
        · exact beq_iff_eq.mp heq ▸ by decide
      rw [child?, if_neg hfield, if_pos htag]
  | commons => exact beq_iff_eq.mp htag ▸ rfl

/-! ## Each edit -/

theorem alike_of_selected (htext : role = .leaf → joined nodes = joined nodes')
    (hselected : ∀ {p : String → Bool} {inner : Role}, role.Reads p inner →
      List.Forall₂ inner.Agree (selected p nodes) (selected p nodes')) :
        role.Alike nodes nodes' where
  text := htext
  single := by
    intro tag inner hsingle hchild
    have hreads : role.Reads (· == tag) inner := by
      rcases hsingle with hleaf | howner
      · cases hchild.symm.trans hleaf
        exact .leaf hleaf
      · cases hchild.symm.trans howner
        exact .owner howner
    exact rel_head? (hselected hreads)
  entries := by
    rintro rfl
    exact hselected .entries
  commons := by
    rintro rfl
    exact hselected .commons

theorem alike_of_eq (htext : role = .leaf → joined nodes = joined nodes')
    (hselected : ∀ {p : String → Bool} {inner : Role}, role.Reads p inner →
      selected p nodes = selected p nodes') :
    role.Alike nodes nodes' :=
  alike_of_selected htext fun {_ inner} hreads => hselected hreads ▸ forall₂_refl inner _

variable {before between after : List Annotated} {attributes attributes' : List (String × String)}
  {children children' : List Annotated}

theorem ownText_piece {value : String} {n : Annotated} (hpiece : IsPiece value n) :
    n.bare.ownText = value := by
  cases hpiece <;> rfl

theorem tag?_piece {value : String} {n : Annotated} (hpiece : IsPiece value n) : n.tag? = none := by
  cases hpiece <;> rfl

theorem alike_unread {n : Annotated} (hignores : role.Ignores n) :
    role.Alike (before ++ after) (before ++ n :: after) := by
  refine alike_of_eq (fun hleaf => ?_) fun {p inner} hreads => ?_
  · have hnone : n.bare.ownText = "" := by
      cases hignores with
      | piece _ hbranch => exact absurd hleaf hbranch
      | empty hpiece => exact ownText_piece hpiece
      | _ => rfl
    rw [joined_append, joined_append, joined_cons, hnone, String.empty_append]
  · have hcons : selected p (n :: after) = selected p after := by
      cases hignores with
      | @element tag attributes children hunread =>
          have htag : ¬ p tag = true := fun htag => by
            cases hunread.symm.trans (hreads.child?_eq htag)
          rw [selected_cons_element, if_neg htag]
      | piece hpiece _ => exact selected_cons_of_none (tag?_piece hpiece)
      | empty hpiece => exact selected_cons_of_none (tag?_piece hpiece)
      | _ => exact selected_cons_of_none rfl
    rw [selected_append, selected_append, hcons]

/-- No tag of a single value is one that is read with others. -/
theorem IsSingle.ne (hsingle : role.IsSingle tag) : role ≠ .leaf ∧ role.child? tag ≠ some .entry ∧
    role.child? tag ≠ some .common := by
  refine ⟨?_, ?_, ?_⟩
  · rintro rfl
    rcases hsingle with hchild | hchild <;> cases hchild
  · intro hentry
    rcases hsingle with hchild | hchild <;> cases hentry.symm.trans hchild
  · intro hcommon
    rcases hsingle with hchild | hchild <;> cases hcommon.symm.trans hchild

theorem alike_further (hsingle : role.IsSingle tag) :
    role.Alike (before ++ .element tag attributes children :: (between ++ after))
      (before ++ .element tag attributes children ::
        (between ++ .element tag attributes' children' :: after)) := by
  obtain ⟨hbranch, hentry, hcommon⟩ := hsingle.ne
  -- without the tag itself nothing is selected that was not there
  have hother {p : String → Bool} (htag : p tag = false) :
      selected p (before ++ .element tag attributes children :: (between ++ after)) =
        selected p (before ++ .element tag attributes children ::
          (between ++ .element tag attributes' children' :: after)) := by
    have hne : ¬ p tag = true := Bool.eq_false_iff.mp htag
    simp only [selected_append, selected_cons_element, if_neg hne]
  refine ⟨fun hleaf => absurd hleaf hbranch, fun {wanted inner} _ _ => ?_, ?_, ?_⟩
  · by_cases htag : tag = wanted
    · have hsame : (tag == wanted) = true := beq_iff_eq.mpr htag
      have hfirst {rest : List Annotated} :
          (selected (· == wanted) (before ++ .element tag attributes children :: rest)).head? =
            (selected (· == wanted) before).head?.or (some ⟨tag, bares children⟩) := by
        rw [selected_append, selected_cons_element, if_pos hsame, List.head?_append,
          List.head?_cons]
      rw [hfirst, hfirst]
      exact rel_refl inner _
    · rw [@hother (· == wanted) (beq_false_of_ne htag)]
      exact rel_refl inner _
  · rintro rfl
    rw [hother (Bool.eq_false_iff.mpr fun htag => hentry (Reads.entries.child?_eq htag))]
    exact forall₂_refl _ _
  · rintro rfl
    rw [hother (Bool.eq_false_iff.mpr fun htag => hcommon (Reads.commons.child?_eq htag))]
    exact forall₂_refl _ _

theorem alike_reordered (hbranch : role ≠ .leaf)
    (htags : ∀ tag, having (· == tag) nodes = having (· == tag) nodes')
    (hentries : having isEntryTag nodes = having isEntryTag nodes') : role.Alike nodes nodes' := by
  have hselected {p : String → Bool} (hhaving : having p nodes = having p nodes') :
      selected p nodes = selected p nodes' := by
    rw [← selected_having nodes, hhaving, selected_having]
  refine alike_of_eq (fun hleaf => absurd hleaf hbranch) fun hreads => ?_
  cases hreads with
  | leaf => exact hselected (htags _)
  | owner => exact hselected (htags _)
  | entries => exact hselected hentries
  | commons => exact hselected (htags _)

theorem alike_attributes : role.Alike (before ++ .element tag attributes children :: after)
    (before ++ .element tag attributes' children :: after) := by
  have hbares : bares (before ++ .element tag attributes children :: after) =
      bares (before ++ .element tag attributes' children :: after) := by
    rw [bares_append, bares_append]
    rfl
  refine alike_of_eq (fun _ => ?_) fun _ => ?_
  · rw [joined, hbares, joined]
  · rw [selected, hbares, selected]

theorem alike_split {s t : String} {whole first second : Annotated}
    (hwhole : IsPiece (s ++ t) whole) (hfirst : IsPiece s first) (hsecond : IsPiece t second) :
    leaf.Alike (before ++ whole :: after) (before ++ first :: second :: after) := by
  refine ⟨fun _ => ?_, fun hsingle => absurd rfl hsingle.ne.1, nofun, nofun⟩
  simp only [joined_append, joined_cons, ownText_piece hwhole, ownText_piece hfirst,
    ownText_piece hsecond, String.append_assoc]

theorem alike_inside (hchild : role.child? tag = some inner)
    (hagree : inner.Agree ⟨tag, bares children⟩ ⟨tag, bares children'⟩) :
    role.Alike (before ++ .element tag attributes children :: after)
      (before ++ .element tag attributes children' :: after) := by
  refine alike_of_selected (fun hleaf => ?_) fun {p inner'} hreads => ?_
  · rw [hleaf] at hchild
    cases hchild
  · rw [selected_append, selected_append, selected_cons_element, selected_cons_element]
    refine List.rel_append (forall₂_refl inner' _) ?_
    split
    next htag =>
        cases hchild.symm.trans (hreads.child?_eq htag)
        exact .cons hagree (forall₂_refl inner _)
    next => exact forall₂_refl inner' _

/-! ## What is read of nodes that are alike -/

theorem map_eq_of_rel {α : Type} {related : Element → Element → Prop} {f : Element → α}
    {e? e'? : Option Element} (hrel : Option.Rel related e? e'?)
    (hsame : ∀ e e', related e e' → f e = f e') : e?.map f = e'?.map f := by
  cases hrel with
  | none => rfl
  | some hrelated => exact congrArg some (hsame _ _ hrelated)

section Alike

variable (halike : role.Alike nodes nodes') (name tag : String)
include halike

theorem Alike.childText? (hleaf : role.child? tag = some .leaf) :
    (Element.mk name (bares nodes)).childText? tag =
      (Element.mk name (bares nodes')).childText? tag := by
  rw [Element.childText?, Element.childText?, Element.child?_eq_head?, Element.child?_eq_head?]
  exact map_eq_of_rel (halike.single (.inl hleaf) hleaf) fun _ _ hagree => hagree

theorem Alike.childContent? (hleaf : role.child? tag = some .leaf) :
    (Element.mk name (bares nodes)).childContent? tag =
      (Element.mk name (bares nodes')).childContent? tag := by
  rw [Element.childContent?, halike.childText? name tag hleaf, Element.childContent?]

theorem Alike.requiredText (hleaf : role.child? tag = some .leaf) :
    (Element.mk name (bares nodes)).requiredText tag =
      (Element.mk name (bares nodes')).requiredText tag := by
  rw [Element.requiredText, Element.childText, halike.childText? name tag hleaf,
    Element.requiredText, Element.childText]

end Alike

theorem Alike.agree_owner (halike : owner.Alike nodes nodes') (name : String) :
    owner.Agree ⟨name, bares nodes⟩ ⟨name, bares nodes'⟩ := by
  rw [Agree, Owner.ofElement, halike.childContent? name "ID" rfl,
    halike.childContent? name "DisplayName" rfl, Owner.ofElement]

theorem Alike.agree_common (halike : common.Alike nodes nodes') (name : String) :
    common.Agree ⟨name, bares nodes⟩ ⟨name, bares nodes'⟩ := by
  intro coding
  rw [Page.commonPrefix, halike.requiredText name "Prefix" rfl, Page.commonPrefix]

theorem Alike.agree_entry (halike : entry.Alike nodes nodes') (name : String) :
    entry.Agree ⟨name, bares nodes⟩ ⟨name, bares nodes'⟩ := by
  intro coding
  have howner : ((Element.mk name (bares nodes)).child? "Owner").map Owner.ofElement =
      ((Element.mk name (bares nodes')).child? "Owner").map Owner.ofElement := by
    rw [Element.child?_eq_head?, Element.child?_eq_head?]
    exact map_eq_of_rel (halike.single (.inr rfl) rfl) fun _ _ hagree => hagree
  simp only [Version.ofElement, Element.flag, Element.number, halike.requiredText name "Key" rfl,
    halike.requiredText name "LastModified" rfl, halike.childContent? name "IsLatest" rfl,
    halike.childContent? name "Size" rfl, halike.childContent? name "ETag" rfl,
    halike.childContent? name "StorageClass" rfl, halike.childText? name "VersionId" rfl, howner]

theorem Alike.agree_root (halike : root.Alike nodes nodes') (name : String) :
    root.Agree ⟨name, bares nodes⟩ ⟨name, bares nodes'⟩ := by
  have hentries (coding : Coding) :
      (merge ((Element.mk name (bares nodes)).matching versionTag)
        ((Element.mk name (bares nodes)).matching deleteMarkerTag)).mapM
          (Version.ofElement coding) =
      (merge ((Element.mk name (bares nodes')).matching versionTag)
        ((Element.mk name (bares nodes')).matching deleteMarkerTag)).mapM
          (Version.ofElement coding) := by
    rw [Element.merge_matching _ (by decide), Element.merge_matching _ (by decide)]
    exact mapM_eq_of_forall₂ ((halike.entries rfl).imp fun _ _ hagree => hagree coding)
  have hcommons (coding : Coding) :
      ((Element.mk name (bares nodes)).matching "CommonPrefixes").mapM (fun c =>
        Page.commonPrefix coding c.2) =
        ((Element.mk name (bares nodes')).matching "CommonPrefixes").mapM fun c =>
          Page.commonPrefix coding c.2 := by
    rw [Page.mapM_commonPrefix, Page.mapM_commonPrefix]
    exact mapM_eq_of_forall₂ ((halike.commons rfl).imp fun _ _ hagree => hagree coding)
  have hleaf {tag : String} (hfield : tag ∈ Page.fieldTags) :
    root.child? tag = some .leaf := if_pos hfield
  have hname := halike.requiredText name "Name" (hleaf (by decide))
  have hcontent (tag : String) (hfield : tag ∈ Page.fieldTags) :
      (Element.mk name (bares nodes)).childContent? tag =
        (Element.mk name (bares nodes')).childContent? tag :=
    halike.childContent? name tag (hleaf hfield)
  simp only [Agree, Page.ofElement, Element.decodedContent?, Element.flag, Element.number, hname,
    hcontent "Prefix" (by decide), hcontent "KeyMarker" (by decide),
    hcontent "VersionIdMarker" (by decide),
    hcontent "NextKeyMarker" (by decide), hcontent "NextVersionIdMarker" (by decide),
    hcontent "MaxKeys" (by decide),
    hcontent "Delimiter" (by decide), hcontent "EncodingType" (by decide),
    hcontent "IsTruncated" (by decide),
    hentries, hcommons]

theorem Alike.agree (halike : role.Alike nodes nodes') (name : String) :
    role.Agree ⟨name, bares nodes⟩ ⟨name, bares nodes'⟩ := by
  cases role with
  | root => exact halike.agree_root name
  | entry => exact halike.agree_entry name
  | owner => exact halike.agree_owner name
  | common => exact halike.agree_common name
  | leaf => exact halike.text rfl

end Role

/-- What an element is read as does not depend on what an edit changes, at whatever depth. -/
theorem Edit.agree {role : Role} {nodes nodes' : List Annotated} (hedit : Edit role nodes nodes')
    (name : String) :
    role.Agree ⟨name, bares nodes⟩ ⟨name, bares nodes'⟩ := by
  induction hedit generalizing name with
  | unread hignores => exact (Role.alike_unread hignores).agree name
  | further hsingle => exact (Role.alike_further hsingle).agree name
  | reordered hbranch _ htags hentries =>
      exact (Role.alike_reordered hbranch htags hentries).agree name
  | attributes => exact Role.alike_attributes.agree name
  | split hwhole hfirst hsecond => exact (Role.alike_split hwhole hfirst hsecond).agree name
  | @inside _ _ tag _ _ _ hchild _ _ _ ih => exact (Role.alike_inside hchild (ih tag)).agree name

theorem Edit.agree_of_eqvGen {role : Role} {nodes nodes' : List Annotated}
    (hedits : Relation.EqvGen (Edit role) nodes nodes') (name : String) :
    role.Agree ⟨name, bares nodes⟩ ⟨name, bares nodes'⟩ := by
  induction hedits with
  | rel _ _ hedit => exact hedit.agree name
  | refl => exact .refl role _
  | symm _ _ _ ih => exact ih.symm
  | trans _ _ _ _ _ ihfirst ihsecond => exact ihfirst.trans ihsecond

/-- The trees differ by edits, any number of them in either direction, and by the attributes
of the root. -/
structure Similar (x y : Annotated.Root) : Prop where
  tag : x.tag = y.tag
  children : Relation.EqvGen (Edit .root) x.children y.children

namespace Page

/-- Documents whose trees differ only in what is not read give the same page, or the same fault. -/
theorem ofXml_of_similar {x y : Annotated.Root} (hsimilar : Similar x y) :
    ofElement x.bare = ofElement y.bare ∧
      ∀ {bs bs' : List UInt8}, Element.ofDocument? bs = some x.bare →
        Element.ofDocument? bs' = some y.bare →
        ofXml bs = ofXml bs' := by
  have hsame : ofElement x.bare = ofElement y.bare := by
    rw [Annotated.Root.bare, Annotated.Root.bare, ← hsimilar.tag]
    exact Edit.agree_of_eqvGen hsimilar.children x.tag
  refine ⟨hsame, fun hx hy => ?_⟩
  rw [ofXml, hx, ofXml, hy]
  exact congrArg (Except.mapError Fault.invalid) hsame

/-- A leaf without attributes. -/
def leafNode (tag text : String) : Annotated := .element tag [] [.text text]

/-- A delete marker as it may stand in a document. -/
def markerNode (attributes : List (String × String)) (rest : List Annotated) : Annotated :=
  .element deleteMarkerTag attributes
    ([leafNode "Key" "k", leafNode "LastModified" "2024-01-01T00:00:00Z"] ++ rest)

/-- A document with a delete marker. -/
def plainRoot : Annotated.Root where
  tag := rootTag
  children := [leafNode "Name" "b", markerNode [] []]

/-- The same with much that is not read, in another order and with the name in a section. -/
def editedRoot : Annotated.Root where
  tag := rootTag
  attributes := [("version", "2")]
  children := [
    markerNode [("seen", "yes")] [leafNode "Note" "n"],
    .element "Name" [] [.characterData "b"],
    leafNode "Name" "c"]

theorem similar_editedRoot : Similar plainRoot editedRoot where
  tag := rfl
  children := by
    have hnote : Edit .root [leafNode "Name" "b", markerNode [] []]
        [leafNode "Name" "b", markerNode [] [leafNode "Note" "n"]] :=
      .inside rfl (.unread (.element rfl) _ []) [leafNode "Name" "b"] []
    have hseen : Edit .root [leafNode "Name" "b", markerNode [] [leafNode "Note" "n"]]
        [leafNode "Name" "b", markerNode [("seen", "yes")] [leafNode "Note" "n"]] :=
      .attributes [leafNode "Name" "b"] []
    have hfurther : Edit .root
        [leafNode "Name" "b", markerNode [("seen", "yes")] [leafNode "Note" "n"]]
        [leafNode "Name" "b", markerNode [("seen", "yes")] [leafNode "Note" "n"],
          leafNode "Name" "c"] :=
      .further (.inl rfl) [] [markerNode [("seen", "yes")] [leafNode "Note" "n"]] []
    -- the section and an empty text are two pieces of the name
    have hwhole : IsPiece ("b" ++ "") (.text "b") := .text
    have hsplit (rest : List Annotated) : Edit .root (leafNode "Name" "b" :: rest)
        (.element "Name" [] [.characterData "b", .text ""] :: rest) :=
      .inside rfl (.split hwhole .characterData .text [] []) [] rest
    have hempty (rest : List Annotated) :
        Edit .root (.element "Name" [] [.characterData "b"] :: rest)
        (.element "Name" [] [.characterData "b", .text ""] :: rest) :=
      .inside rfl (.unread (.empty .text) [.characterData "b"] []) [] rest
    have hmarkerFirst : Edit .root
        [.element "Name" [] [.characterData "b"],
          markerNode [("seen", "yes")] [leafNode "Note" "n"],
          leafNode "Name" "c"] editedRoot.children := by
      refine .reordered nofun (.swap _ _ _) (fun tag => ?_) rfl
      by_cases htag : tag = "Name"
      · rw [htag]
        rfl
      · have hname : ("Name" == tag) = false := beq_false_of_ne (Ne.symm htag)
        simp [having, editedRoot, tag?, leafNode, hname, List.filter_cons]
    refine .trans _ _ _ (.rel _ _ hnote)
      (.trans _ _ _ (.rel _ _ hseen) (.trans _ _ _ (.rel _ _ hfurther) ?_))
    refine .trans _ _ _ (.rel _ _ (hsplit _)) (.trans _ _ _ (.symm _ _ (.rel _ _ (hempty _))) ?_)
    exact .rel _ _ hmarkerFirst

theorem ofXml_of_similar_editedRoot :
    Similar plainRoot editedRoot ∧ ofElement plainRoot.bare = ofElement editedRoot.bare ∧
      ofXml (Text.bytes plainRoot.bare.document) = ofXml (Text.bytes editedRoot.bare.document) := by
  have hleaf {tag text : String}
      (hplain : IsTag tag ∧ IsWritable text ∧ text.toList.all isSpace = false) :
      (leafNode tag text).bare.Written := .text hplain.1 hplain.2.1 hplain.2.2
  have hname : IsWritable "b" := by decide
  have hmarker (attributes : List (String × String)) {rest : List Annotated}
      (hrest : ∀ n ∈ bares rest, n.Written) : (markerNode attributes rest).bare.Written := by
    refine .elements (by decide) (List.forall_mem_cons.mpr ⟨hleaf (by decide), ?_⟩)
    exact List.forall_mem_cons.mpr ⟨hleaf (by decide), hrest⟩
  have hplain : plainRoot.bare.toNode.Written := by
    refine .elements (by decide) (List.forall_mem_cons.mpr ⟨hleaf (by decide), ?_⟩)
    exact List.forall_mem_singleton.mpr (hmarker [] (List.forall_mem_nil _))
  have hedited : editedRoot.bare.toNode.Written := by
    refine .elements (by decide)
      (List.forall_mem_cons.mpr ⟨hmarker _ ?_, List.forall_mem_cons.mpr ⟨?_, ?_⟩⟩)
    · exact List.forall_mem_singleton.mpr (hleaf (by decide))
    · exact .characterData (by decide) hname (by decide)
    · exact List.forall_mem_singleton.mpr (hleaf (by decide))
  obtain ⟨htrees, hdocuments⟩ := ofXml_of_similar similar_editedRoot
  exact ⟨similar_editedRoot, htrees,
    hdocuments (Element.ofDocument?_document hplain) (Element.ofDocument?_document hedited)⟩

end Page

end VersionedBucket
