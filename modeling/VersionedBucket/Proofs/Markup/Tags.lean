import VersionedBucket.Markup.Document

/-! # Tags read back

An opening tag opens a frame, a closing tag gives the element that the frame has become to the frame
around it, and a tag that closes itself gives an element without children. The tags are those a
document is written with: letters only and no attributes.
-/

namespace VersionedBucket.Markup

/-- A name made of letters, which needs neither a prefix nor an escape. -/
def IsTag (tag : String) : Prop :=
  tag.toList ≠ [] ∧ tag.toList.all Char.isAlpha = true ∧ isWithinLimit tag.toList = true

instance (tag : String) : Decidable (IsTag tag) := by unfold IsTag; infer_instance

theorem IsTag.isAlpha {tag : String} (htag : IsTag tag) : ∀ c ∈ tag.toList, c.isAlpha = true :=
  List.all_eq_true.mp htag.2.1

theorem isNameStart_of_isAlpha {c : Char} (halpha : c.isAlpha = true) : isNameStart c = true := by
  simp only [isNameStart, halpha, Bool.true_or]

theorem isNamePart_of_isAlpha {c : Char} (halpha : c.isAlpha = true) : isNamePart c = true := by
  simp only [isNamePart, isNameStart_of_isAlpha halpha, Bool.true_or]

/-- A letter is different from every character that is none. -/
theorem ne_of_isAlpha {c d : Char} (halpha : c.isAlpha = true) (hother : d.isAlpha = false) :
    c ≠ d := by
  rintro rfl
  exact Bool.false_ne_true (hother.symm.trans halpha)

theorem pieces_of_forall_ne {separator : Char} {cs : List Char} (hne : ∀ c ∈ cs, c ≠ separator) :
    Text.pieces separator cs = [cs] := by
  induction cs with
  | nil => rfl
  | cons c cs ih =>
      rw [Text.pieces, if_neg (hne c List.mem_cons_self),
        ih fun d hd => hne d (List.mem_cons_of_mem _ hd)]

theorem IsTag.ofChars? {tag : String} (htag : IsTag tag) :
    Name.ofChars? tag.toList = some ⟨none, tag.toList⟩ := by
  have halpha := htag.isAlpha
  obtain ⟨hne, _, hlimit⟩ := htag
  have hpieces : Text.pieces ':' tag.toList = [tag.toList] :=
    pieces_of_forall_ne fun c hc => ne_of_isAlpha (halpha c hc) rfl
  have hempty : tag.toList.isEmpty = false := List.isEmpty_eq_false_iff.mpr hne
  simp only [Name.ofChars?, hlimit, if_true, hpieces, hempty, Bool.false_eq_true, if_false]

/-- A letter is a token by itself. -/
theorem Token.ofContent_of_isAlpha {c : Char} (halpha : c.isAlpha = true) :
    ofContent c = .character c := by
  simp only [ofContent, ofDoctype, ne_of_isAlpha halpha (d := '=') rfl,
    ne_of_isAlpha halpha (d := '>') rfl, ne_of_isAlpha halpha (d := '&') rfl,
    ne_of_isAlpha halpha (d := ';') rfl, ne_of_isAlpha halpha (d := '"') rfl,
    ne_of_isAlpha halpha (d := '\'') rfl, if_false]

theorem Lexer.readContent_of_isAlpha {c : Char} (halpha : c.isAlpha = true) :
    readContent {} c = ([.character c], {}) := by
  simp only [readContent, ne_of_isAlpha halpha (d := '<') rfl, ne_of_isAlpha halpha (d := '/') rfl,
    ne_of_isAlpha halpha (d := ']') rfl, if_false, Token.ofContent_of_isAlpha halpha]
  rfl

namespace Scanner

/-- A character that refers to no entity of the document's own is read and done with. -/
theorem readAll_cons {s s' : Scanner} {c : Char} {rest : List Char} (htake : s.take c = some s')
    (hpending : s'.pending = []) : s.readAll (c :: rest) = s'.readAll rest := by
  have hread : s.read c = some s' := by
    simp only [read, readReplacing, htake, hpending, List.isEmpty_nil, if_true]
  rw [readAll, hread]
  rfl

/-- Inside of the document, where no document type may come any more: the open elements, the root,
where in a mark the scanner stands, and the text since the last mark. -/
def inside (frames : List Frame) (root : Option Element) (mode : Mode) (text : List Char := [])
    (lexer : Lexer.Mode := .content) : Scanner :=
  { frames, root, mode, run := text.reverse, isBlank := text.all isSpace, allowsDoctype := false,
    lexer := { mode := lexer } }

@[simp]
theorem mode_inside (frames : List Frame) (root : Option Element) (mode : Mode) (text : List Char)
    (lexer : Lexer.Mode) : (inside frames root mode text lexer).mode = mode :=
  rfl

@[simp]
theorem frames_inside (frames : List Frame) (root : Option Element) (mode : Mode) (text : List Char)
    (lexer : Lexer.Mode) : (inside frames root mode text lexer).frames = frames :=
  rfl

@[simp]
theorem goto_inside (frames : List Frame) (root : Option Element) (mode mode' : Mode)
    (text : List Char) (lexer : Lexer.Mode) :
    (inside frames root mode text lexer).goto mode' = some (inside frames root mode' text lexer) :=
  rfl

theorem take_eq_foldlM {s : Scanner} {c : Char} {tokens : List Token} {lexer : Lexer}
    (hcut : s.lexer.read? c = some (tokens, lexer)) :
    s.take c = tokens.foldlM step { s with lexer } := by
  simp only [take, hcut]

/-- A character that completes one token makes one step. -/
theorem take_of_step {s s' : Scanner} {c : Char} {t : Token} {lexer : Lexer}
    (hcut : s.lexer.read? c = some ([t], lexer)) (hstep : step { s with lexer } t = some s') :
    s.take c = some s' := by
  rw [take_eq_foldlM hcut, List.foldlM_cons, hstep]
  rfl

/-- A letter between marks is the only token that it completes. -/
theorem take_of_isAlpha {s s' : Scanner} {c : Char} (halpha : c.isAlpha = true)
    (hlexer : s.lexer = {}) (hstep : s.step (.character c) = some s') : s.take c = some s' := by
  have hcut : s.lexer.read? c = some ([.character c], {}) := by
    rw [hlexer]
    exact congrArg some (Lexer.readContent_of_isAlpha halpha)
  refine take_of_step hcut ?_
  rw [← hlexer]
  exact hstep

variable {frames : List Frame} {root : Option Element}

/-- The names in opening tags, in closing tags and in references are read in the same way. -/
theorem readAll_name {mode : List Char → Mode} {text seen cs : List Char} (rest : List Char)
    (hmode : mode = .tagName ∨ mode = .endName ∨ mode = .reference)
    (halpha : ∀ c ∈ cs, c.isAlpha = true) :
    (inside frames root (mode seen) text).readAll (cs ++ rest) =
      (inside frames root (mode (cs.reverse ++ seen)) text).readAll rest := by
  induction cs generalizing seen with
  | nil => rfl
  | cons c cs ih =>
      have hc := halpha c List.mem_cons_self
      have hname : (if seen.isEmpty then isNameStart c else isNamePart c) = true := by
        split
        · exact isNameStart_of_isAlpha hc
        · exact isNamePart_of_isAlpha hc
      have hreference : isReferencePart seen c = true := by
        unfold isReferencePart
        split
        · rw [isNameStart_of_isAlpha hc, Bool.true_or]
        · exact isNamePart_of_isAlpha hc
      have hstep : (inside frames root (mode seen) text).step (.character c) =
          some (inside frames root (mode (c :: seen)) text) := by
        rcases hmode with rfl | rfl | rfl
        · simp only [step, mode_inside, stepTagName, stepName, hname, if_true, goto_inside]
        · simp only [step, mode_inside, stepEndName, stepName, hname, if_true, goto_inside]
        · simp only [step, mode_inside, stepReference, hreference, if_true, goto_inside]
      rw [List.cons_append, readAll_cons (take_of_isAlpha hc rfl hstep) rfl,
        ih fun d hd => halpha d (List.mem_cons_of_mem _ hd), List.reverse_cons, List.append_assoc,
        List.singleton_append]

theorem readAll_tagStart {tag : String} (htag : IsTag tag) (allowsDoctype : Bool)
    (rest : List Char) :
    ({ frames, root, allowsDoctype } : Scanner).readAll ('<' :: (tag.toList ++ rest)) =
      (inside frames root (.tagName tag.toList.reverse)).readAll rest := by
  have halpha := htag.isAlpha
  obtain ⟨hne, _, _⟩ := htag
  cases hform : tag.toList with
  | nil => exact absurd hform hne
  | cons c cs =>
      rw [hform] at halpha
      have hc := halpha c List.mem_cons_self
      -- the bracket becomes a token only when the first letter shows that a name follows
      have hcut : ({ mode := .less } : Lexer).read? c = some ([.tagStart, .character c], {}) := by
        simp only [Lexer.read?, Lexer.readLess?, ne_of_isAlpha hc (d := '?') rfl,
          ne_of_isAlpha hc (d := '/') rfl, ne_of_isAlpha hc (d := '!') rfl,
          isNamePart_of_isAlpha hc, if_false,
          or_true, if_true]
        rfl
      have htake : ({ frames, root, allowsDoctype, lexer := { mode := .less } } : Scanner).take c =
          some (inside frames root (.tagName [c])) := by
        have hmark : step ({ frames, root, allowsDoctype } : Scanner) .tagStart =
            some (inside frames root (.tagName [])) := rfl
        have hletter : step (inside frames root (.tagName [])) (.character c) =
            some (inside frames root (.tagName [c])) := by
          simp only [step, mode_inside, stepTagName, stepName, List.isEmpty_nil,
            isNameStart_of_isAlpha hc, if_true, goto_inside]
        rw [take_eq_foldlM hcut, List.foldlM_cons, hmark]
        exact congrArg (· >>= fun s => [].foldlM step s) hletter
      have hless : ({ frames, root, allowsDoctype } : Scanner).take '<' =
          some { frames, root, allowsDoctype, lexer := { mode := .less } } := rfl
      rw [readAll_cons hless rfl, List.cons_append, readAll_cons htake rfl,
        readAll_name rest (.inl rfl) fun d hd =>
          halpha d (List.mem_cons_of_mem _ hd), List.reverse_cons]

/-- The prefixes that are bound between some elements. -/
def spacesIn (frames : List Frame) : List (List Char) := (inside frames none .content).spaces

theorem tag?_reverse {tag : String} (htag : IsTag tag) (mode : Mode) :
    (inside frames root mode).tag? tag.toList.reverse =
      some { name := ⟨none, tag.toList⟩, spaces := spacesIn frames } := by
  simp only [tag?, List.reverse_reverse, htag.ofChars?]
  rfl

/-- The frame that an opening tag adds to the open elements. -/
def frameIn (frames : List Frame) (tag : String) : Frame :=
  { name := ⟨none, tag.toList⟩, spaces := spacesIn frames }

theorem readAll_openTag {tag : String} (htag : IsTag tag) (allowsDoctype : Bool)
    (rest : List Char) :
    ({ frames, root, allowsDoctype } : Scanner).readAll ('<' :: (tag.toList ++ '>' :: rest)) =
      (inside (frameIn frames tag :: frames) root .content).readAll rest := by
  have hstep : step (inside frames root (.tagName tag.toList.reverse)) .tagEnd =
      some (inside (frameIn frames tag :: frames) root .content) := by
    simp only [step, mode_inside, stepTagName, stepName, tag?_reverse htag]
    rfl
  rw [readAll_tagStart htag, readAll_cons (take_of_step rfl hstep) rfl]

theorem place_inside (frames : List Frame) (root : Option Element) (n : Node) (mode : Mode) :
    { (inside frames root mode).place n with mode := .content } =
      (inside frames root .content).place n := by
  cases frames <;> rfl

theorem pending_place (s : Scanner) (n : Node) : (s.place n).pending = s.pending := by
  unfold place
  split <;> rfl

theorem readAll_emptyTag {tag : String} (htag : IsTag tag) (allowsDoctype : Bool)
    (rest : List Char) :
    ({ frames, root, allowsDoctype } : Scanner).readAll
        ('<' :: (tag.toList ++ (" />".toList ++ rest))) =
      ((inside frames root .content).place (.element tag [])).readAll rest := by
  obtain ⟨opened, hopened⟩ :
      ∃ opened, opened = ({ name := ⟨none, tag.toList⟩, spaces := spacesIn frames } : Tag) :=
    ⟨_, rfl⟩
  have hspace : step (inside frames root (.tagName tag.toList.reverse)) (.character ' ') =
      some (inside frames root (.tag opened)) := by
    have hname :
        (if tag.toList.reverse.isEmpty then isNameStart ' ' else isNamePart ' ') = false := by
      split <;> rfl
    simp only [step, mode_inside, stepTagName, stepName, hname, Bool.false_eq_true,
      if_false, tag?_reverse htag, hopened]
    rfl
  have hslash : (inside frames root (.tag opened)).take '/' =
      some { frames, root, mode := .tag opened, allowsDoctype := false,
             lexer := { mode := .slash } } := rfl
  have hend : step (inside frames root (.tag opened)) .emptyTagEnd =
      some ((inside frames root .content).place (.element tag [])) := by
    have hplaced : step (inside frames root (.tag opened)) .emptyTagEnd =
        some { (inside frames root (.tag opened)).place
            (.element (String.ofList tag.toList) []) with
          mode := .content } := by
      rw [hopened]
      rfl
    rw [hplaced, place_inside, String.ofList_toList]
  have hmark : " />".toList ++ rest = ' ' :: '/' :: '>' :: rest := rfl
  rw [hmark, readAll_tagStart htag, readAll_cons (take_of_step rfl hspace) rfl,
    readAll_cons hslash rfl, readAll_cons (take_of_step rfl hend) (pending_place ..)]

/-- The rest of a closing tag, which begins with the end of the run of text before it. -/
theorem readAll_closeTag {s : Scanner} {tag : String} {f : Frame} (htag : IsTag tag)
    (hlexer : s.lexer = { mode := .less })
    (hstep : step { s with lexer := {} } .closingTagStart =
      some (inside (f :: frames) root (.endName [])))
    (hname : f.name = ⟨none, tag.toList⟩) (rest : List Char) :
    s.readAll ('/' :: (tag.toList ++ '>' :: rest)) =
      ((inside frames root .content).place (.element tag f.children.reverse)).readAll rest := by
  have hslash : s.take '/' = some (inside (f :: frames) root (.endName [])) := by
    have hcut : s.lexer.read? '/' = some ([.closingTagStart], {}) := by
      rw [hlexer]
      rfl
    exact take_of_step hcut hstep
  have hend : step (inside (f :: frames) root (.endName tag.toList.reverse)) .tagEnd =
      some ((inside frames root .content).place (.element tag f.children.reverse)) := by
    have hclosed :
        (inside (f :: frames) root (.endName tag.toList.reverse)).closeTag ⟨none, tag.toList⟩ =
        some { (inside frames root (.endName tag.toList.reverse)).place
          (.element (String.ofList tag.toList) f.children.reverse) with mode := .content } := by
      simp only [closeTag, frames_inside, hname, if_true]
      rfl
    rw [place_inside, String.ofList_toList] at hclosed
    simp only [step, mode_inside, stepEndName, stepName, List.reverse_reverse, htag.ofChars?]
    exact hclosed
  rw [readAll_cons hslash rfl, readAll_name _ (.inr (.inl rfl)) htag.isAlpha, List.append_nil,
    readAll_cons (take_of_step rfl hend) (pending_place ..)]

end Scanner

end VersionedBucket.Markup
