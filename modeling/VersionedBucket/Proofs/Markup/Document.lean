import VersionedBucket.Proofs.Markup.Content
import VersionedBucket.Proofs.Percent
import VersionedBucket.Proofs.Text.Utf8

/-! # Documents read back

A tree comes back from its document if its tags are plain, its text is legal, and no element holds
white space that is not in a character-data section. Reading a node adds it to the innermost open
element; the induction is on how the tree is built.
-/

namespace VersionedBucket.Markup

/-- A node that its document carries without loss. -/
inductive Node.Written : Node → Prop where
  | empty {tag : String} (htag : IsTag tag) : Written (.element tag [])
  | text {tag value : String} (htag : IsTag tag) (hlegal : ∀ c ∈ value.toList, IsLegal c)
      (hblank : value.toList.all isSpace = false) : Written (.element tag [.text value])
  | characterData {tag value : String} (htag : IsTag tag) (hlegal : ∀ c ∈ value.toList, IsLegal c)
      (hbracket : ']' ∉ value.toList) : Written (.element tag [.characterData value])
  | elements {tag : String} {first : Node} {rest : List Node} (htag : IsTag tag)
      (hchildren : ∀ n ∈ first :: rest, Written n) : Written (.element tag (first :: rest))

theorem isBlank_of_isSpace {c : Char} (hspace : isSpace c = true) : Text.isBlank c = true := by
  simp only [isSpace, Bool.or_eq_true, beq_iff_eq] at hspace
  rcases hspace with ((rfl | rfl) | rfl) | rfl <;> rfl

namespace Element

/-- White space alone goes into a section, so no leaf loses its text. -/
theorem written_leaf {tag text : String} (htag : IsTag tag)
    (hlegal : ∀ c ∈ text.toList, IsLegal c) :
    (leaf tag text).toNode.Written := by
  unfold leaf toNode
  dsimp only
  split
  · exact .empty htag
  split
  next hblank =>
      refine .characterData htag hlegal fun hbracket => ?_
      exact absurd (List.all_eq_true.mp hblank ']' hbracket) (by decide)
  next hblank =>
      refine .text htag hlegal (Bool.eq_false_iff.mpr fun hspace => hblank ?_)
      exact List.all_eq_true.mpr fun c hc => isBlank_of_isSpace (List.all_eq_true.mp hspace c hc)

theorem written_branch {tag : String} {children : List Element} (htag : IsTag tag)
    (hchildren : ∀ e ∈ children, e.toNode.Written) : (branch tag children).toNode.Written := by
  cases children with
  | nil => exact .empty htag
  | cons first rest =>
      refine .elements htag fun n hn => ?_
      have hn : n ∈ (first :: rest).map toNode := hn
      obtain ⟨e, he, rfl⟩ := List.mem_map.mp hn
      exact hchildren e he

end Element

namespace Node

theorem render_empty (tag : String) :
    (element tag []).render = '<' :: (tag.toList ++ " />".toList) := rfl

theorem render_element (tag : String) (first : Node) (rest : List Node) :
    (element tag (first :: rest)).render =
      '<' :: tag.toList ++ '>' :: renderAll (first :: rest) ++
        '<' :: '/' :: tag.toList ++ ['>'] := rfl

theorem render_text (value : String) : (text value).render = value.toList.flatMap escape := rfl

theorem render_characterData (value : String) :
    (characterData value).render = "<![CDATA[".toList ++ value.toList ++ "]]>".toList := rfl

theorem renderAll_nil : renderAll [] = [] := rfl

theorem renderAll_cons (n : Node) (rest : List Node) :
    renderAll (n :: rest) = n.render ++ renderAll rest := rfl

end Node

namespace Scanner

theorem place_inside_cons (f : Frame) (outer : List Frame) (root : Option Element) (n : Node) :
    (inside (f :: outer) root .content).place n =
      inside ({ f with children := n :: f.children } :: outer) root .content :=
  rfl

/-- Nodes that are read one after the other. -/
theorem readAll_renderAll {f : Frame} {outer : List Frame} {root : Option Element}
    {nodes : List Node}
    (hnodes : ∀ n ∈ nodes, ∀ (frames : List Frame) (rest : List Char),
      (inside frames root .content).readAll (n.render ++ rest) =
        ((inside frames root .content).place n).readAll rest)
    (rest : List Char) :
    (inside (f :: outer) root .content).readAll (Node.renderAll nodes ++ rest) =
      (inside ({ f with children := nodes.reverse ++ f.children } :: outer) root
        .content).readAll rest := by
  induction nodes generalizing f with
  | nil => rfl
  | cons n nodes ih =>
      rw [Node.renderAll_cons, List.append_assoc, hnodes n List.mem_cons_self]
      rw [place_inside_cons, ih fun m hm => hnodes m (List.mem_cons_of_mem _ hm), List.reverse_cons,
        List.append_assoc]
      rfl

theorem readAll_render {n : Node} (hwritten : n.Written) (frames : List Frame)
    (root : Option Element) (allowsDoctype : Bool) (rest : List Char) :
    ({ frames, root, allowsDoctype } : Scanner).readAll (n.render ++ rest) =
      ((inside frames root .content).place n).readAll rest := by
  induction hwritten generalizing frames allowsDoctype rest with
  | empty htag =>
      rw [Node.render_empty, List.cons_append, List.append_assoc]
      exact readAll_emptyTag htag ..
  | @text tag value htag hlegal hblank =>
      simp only [Node.render_element, Node.renderAll_cons, Node.render_text, Node.renderAll_nil,
        List.cons_append, List.append_assoc, List.nil_append]
      rw [readAll_openTag htag,
        readAll_textElement (f := frameIn frames tag) htag rfl hlegal hblank, String.ofList_toList]
      rfl
  | @characterData tag value htag hlegal hbracket =>
      simp only [Node.render_element, Node.renderAll_cons, Node.render_characterData,
        Node.renderAll_nil, List.cons_append, List.append_assoc, List.nil_append]
      rw [readAll_openTag htag,
        readAll_sectionElement (f := frameIn frames tag) htag rfl hlegal hbracket,
        String.ofList_toList]
      rfl
  | @elements tag first nodes htag hchildren ih =>
      rw [Node.render_element]
      simp only [List.cons_append, List.append_assoc, List.nil_append]
      -- the frame collects its children backwards, and the closing tag turns them round
      rw [readAll_openTag htag, readAll_renderAll fun n hn frames => ih n hn frames false]
      obtain ⟨filled, hfilled⟩ : ∃ filled : Frame,
        filled = { frameIn frames tag with children := (first :: nodes).reverse ++ [] } := ⟨_, rfl⟩
      have hless : (inside (filled :: frames) root .content).take '<' =
          some (inside (filled :: frames) root .content [] .less) := rfl
      have hstep : step (inside (filled :: frames) root .content) .closingTagStart =
          some (inside (filled :: frames) root (.endName [])) := rfl
      show (inside
          ({ frameIn frames tag with children := (first :: nodes).reverse ++ [] } :: frames)
          root .content).readAll _ = _
      rw [← hfilled, readAll_cons hless rfl,
        readAll_closeTag (s := inside (filled :: frames) root .content [] .less)
        htag rfl hstep (hfilled ▸ rfl), hfilled, List.append_nil, List.reverse_reverse]

end Scanner

/-- Without a byte order mark the declaration is read first, and it tells how to read the rest. -/
theorem characters_of_absent {bs : List UInt8} {n : Nat} {front cs : List Char} {d : Declaration}
    {encoding : Encoding} (hmark : ByteOrderMark.split bs = (.absent, bs))
    (hlength : Declaration.length (byteChars bs) = n)
    (hfront : Encoding.utf8.decode (bs.take n) = some front)
    (hdeclaration : Declaration.ofFront? front = some d)
    (hencoding : Encoding.settle .absent d.encoding = some encoding)
    (hcontent : encoding.decode (bs.drop n) = some cs) : characters bs = some (d.edition, cs) := by
  simp only [characters, hmark, hlength, hfront, hdeclaration, hencoding, hcontent,
    Option.bind_eq_bind, Option.bind_some]

/-- The characters of a written document that come after its declaration. -/
theorem characters_document (cs : List Char) :
    characters (Text.bytes (declarationText ++ String.ofList cs)) = some (.first, cs) := by
  have hbytes : Text.bytes (declarationText ++ String.ofList cs) =
      Text.encodeChars declarationText.toList ++ Text.encodeChars cs := by
    rw [Text.bytes, String.toList_append, String.toList_ofList, Text.encodeChars_append]
  -- of the declaration everything is known, so its end and its content are found by computation
  have hlength : Declaration.length
      (byteChars (Text.encodeChars declarationText.toList ++ Text.encodeChars cs)) =
      (Text.encodeChars declarationText.toList).length := rfl
  have hdeclaration : Declaration.ofFront? declarationText.toList =
    some { encoding := some .utf8 } := rfl
  have hdecode (cs : List Char) : Encoding.utf8.decode (Text.encodeChars cs) = some cs :=
    congrArg Except.toOption (Text.Utf8.decode_encodeChars cs)
  have hmark :
      ByteOrderMark.split (Text.encodeChars declarationText.toList ++ Text.encodeChars cs) =
      (.absent, Text.encodeChars declarationText.toList ++ Text.encodeChars cs) := rfl
  rw [hbytes]
  refine characters_of_absent hmark hlength ?_ hdeclaration rfl ?_
  · rw [List.take_left, hdecode]
  · rw [List.drop_left, hdecode]

/-- The root of a document is the element that was written. -/
theorem Element.ofDocument?_document {e : Element} (hwritten : e.toNode.Written) :
    ofDocument? (Text.bytes e.document) = some e := by
  have hroot : ({} : Scanner).readAll e.toNode.render =
      some ((Scanner.inside [] none .content).place e.toNode) := by
    have hread := Scanner.readAll_render hwritten [] none true []
    rwa [List.append_nil] at hread
  have hread : ofDocument? (Text.bytes e.document) =
      (({} : Scanner).readAll e.toNode.render).bind Scanner.finish? := by
    rw [ofDocument?, document, characters_document]
    rfl
  rw [hread, hroot]
  rfl

end VersionedBucket.Markup
