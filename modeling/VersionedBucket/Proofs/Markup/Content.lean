import VersionedBucket.Markup.Printer
import VersionedBucket.Proofs.Markup.Tags

/-! # Text read back

Characters of text come back one by one, those that would be marks by reference. A slash or a
bracket is held back until the next character shows that it is no part of a mark; this
character is there, as a text is always followed by a closing tag. In a character-data section
nothing is escaped.
-/

namespace VersionedBucket.Markup

/-- The character may be part of a document's text. -/
def IsLegal (c : Char) : Prop := Edition.first.isLegal c = true

instance (c : Char) : Decidable (IsLegal c) := by unfold IsLegal; infer_instance

namespace Lexer

/-- The characters held back in a mode of the lexer. -/
inductive Held : Mode → List Char → Prop where
  | content : Held .content []
  | slash : Held .slash ['/']
  | bracket : Held .bracket [']']
  | brackets : Held .brackets [']', ']']

/-- What is held back turns out to be text if no mark is completed. -/
theorem Held.read?_eq {mode : Mode} {held : List Char} (hheld : Held mode held) {c : Char}
    (hend : c ≠ '>') (hbracket : c ≠ ']') :
    ({ mode } : Lexer).read? c = some (after held (readContent {} c)) := by
  cases hheld with
  | content => rfl
  | slash =>
      simp only [read?, if_neg hend]
      rfl
  | bracket =>
      simp only [read?, if_neg hbracket]
      rfl
  | brackets =>
      simp only [read?, if_neg hend, if_neg hbracket]
      rfl

theorem Held.isLegal {mode : Mode} {held : List Char} (hheld : Held mode held) :
    ∀ c ∈ held, IsLegal c := by
  intro c hc
  cases hheld with
  | content => cases hc
  | slash =>
      rw [List.mem_singleton.mp hc]
      rfl
  | bracket =>
      rw [List.mem_singleton.mp hc]
      rfl
  | brackets =>
      rw [List.eq_of_mem_replicate (show c ∈ List.replicate 2 ']' from hc)]
      rfl

/-- Content has no document type in it. -/
theorem exists_readContent (c : Char) : ∃ tokens mode, readContent {} c = (tokens, { mode }) := by
  unfold readContent
  split
  · exact ⟨_, _, rfl⟩
  split
  · exact ⟨_, _, rfl⟩
  split
  · exact ⟨_, _, rfl⟩
  · exact ⟨_, _, rfl⟩

end Lexer

namespace Scanner

open Lexer (Held)

variable {f : Frame} {outer : List Frame} {root : Option Element}

theorem isPlain_of_isLegal {c : Char} (hlegal : IsLegal c) : Edition.first.isPlain c = true := by
  rw [Edition.isPlain, hlegal]
  rfl

theorem push_inside (text cs : List Char) (lexer : Lexer.Mode) :
    (inside (f :: outer) root .content text lexer).push cs =
      inside (f :: outer) root .content (text ++ cs) lexer := by
  simp only [push, inside, List.reverse_append, List.all_append]

theorem step_character {c : Char} (hlegal : IsLegal c) (text : List Char) (lexer : Lexer.Mode) :
    (inside (f :: outer) root .content text lexer).step (.character c) =
      some (inside (f :: outer) root .content (text ++ [c]) lexer) := by
  rw [← push_inside]
  exact if_pos (isPlain_of_isLegal hlegal)

/-- A character that begins no reference is text by itself. -/
theorem step_ofContent {c : Char} (hlegal : IsLegal c) (hreference : c ≠ '&') (text : List Char)
    (lexer : Lexer.Mode) :
    (inside (f :: outer) root .content text lexer).step (.ofContent c) =
      some (inside (f :: outer) root .content (text ++ [c]) lexer) := by
  unfold Token.ofContent Token.ofDoctype
  split
  next heq => rw [heq, ← push_inside]; rfl
  split
  next heq => rw [heq, ← push_inside]; rfl
  split
  next heq => rw [heq, ← push_inside]; rfl
  split
  next heq => rw [heq, ← push_inside]; rfl
  split
  next heq => rw [heq, ← push_inside]; rfl
  exact step_character hlegal text lexer

theorem steps_characters {cs : List Char} (hlegal : ∀ c ∈ cs, IsLegal c) (text : List Char)
    (lexer : Lexer.Mode) :
    (cs.map Token.character).foldlM step (inside (f :: outer) root .content text lexer) =
      some (inside (f :: outer) root .content (text ++ cs) lexer) := by
  induction cs generalizing text with
  | nil => rw [List.append_nil]; rfl
  | cons c cs ih =>
      rw [List.map_cons, List.foldlM_cons, step_character (hlegal c List.mem_cons_self)]
      refine (ih (fun d hd => hlegal d (List.mem_cons_of_mem _ hd)) _).trans ?_
      rw [List.append_assoc, List.singleton_append]

/-- Characters that were held back are text. -/
theorem take_of_held {mode : Lexer.Mode} {held : List Char} (hheld : Held mode held) {c : Char}
    (hend : c ≠ '>') (hbracket : c ≠ ']') (text : List Char) :
    (inside (f :: outer) root .content text mode).take c =
      (inside (f :: outer) root .content (text ++ held)).take c := by
  obtain ⟨tokens, after, hcontent⟩ := Lexer.exists_readContent c
  have hcut : ({ mode } : Lexer).read? c =
      some (held.map .character ++ tokens, { mode := after }) := by
    rw [hheld.read?_eq hend hbracket, hcontent]
    rfl
  have hplain : ({} : Lexer).read? c = some (tokens, { mode := after }) := congrArg some hcontent
  have hsteps : (held.map Token.character ++ tokens).foldlM step
      (inside (f :: outer) root .content text after) =
      tokens.foldlM step (inside (f :: outer) root .content (text ++ held) after) := by
    rw [List.foldlM_append, steps_characters hheld.isLegal]
    rfl
  have htake : (inside (f :: outer) root .content (text ++ held)).take c = _ :=
    take_eq_foldlM hplain
  exact (take_eq_foldlM hcut).trans (hsteps.trans htake.symm)

/-- The text since the last mark is known, but its end may still be held back. -/
inductive AtText (frames : List Frame) (root : Option Element) : List Char → Scanner → Prop where
  | intro {mode : Lexer.Mode} {held : List Char} (text : List Char) (hheld : Held mode held) :
      AtText frames root (text ++ held) (inside frames root .content text mode)

theorem atText_inside (frames : List Frame) (root : Option Element) (text : List Char) :
    AtText frames root text (inside frames root .content text) := by
  have hat : AtText frames root (text ++ []) (inside frames root .content text) :=
    .intro text .content
  rwa [List.append_nil] at hat

theorem AtText.take_eq {text : List Char} {s : Scanner} (hat : AtText (f :: outer) root text s)
    {c : Char} (hend : c ≠ '>') (hbracket : c ≠ ']') :
    s.take c = (inside (f :: outer) root .content text).take c := by
  obtain ⟨text, hheld⟩ := hat
  exact take_of_held hheld hend hbracket text

/-- Where another character follows, nothing depends on what was held back. -/
theorem AtText.readAll_cons {text : List Char} {s : Scanner} (hat : AtText (f :: outer) root text s)
    {c : Char} (hend : c ≠ '>') (hbracket : c ≠ ']') (rest : List Char) :
    s.readAll (c :: rest) = (inside (f :: outer) root .content text).readAll (c :: rest) := by
  simp only [readAll, read, readReplacing, hat.take_eq hend hbracket]

theorem AtText.pending {frames : List Frame} {text : List Char} {s : Scanner}
    (hat : AtText frames root text s) :
    s.pending = [] := by
  obtain ⟨text, hheld⟩ := hat
  rfl

/-- Of two brackets and more the last two are held back. -/
theorem AtText.take_bracket {text : List Char} {s : Scanner}
    (hat : AtText (f :: outer) root text s) :
    ∃ s', s.take ']' = some s' ∧ AtText (f :: outer) root (text ++ [']']) s' := by
  obtain ⟨text, hheld⟩ := hat
  cases hheld with
  | content => exact ⟨_, rfl, (List.append_nil text).symm ▸ .intro text .bracket⟩
  | slash =>
      have hstep : step (inside (f :: outer) root .content text .bracket) (.character '/') =
          some (inside (f :: outer) root .content (text ++ ['/']) .bracket) :=
        step_character (c := '/') rfl text .bracket
      exact ⟨_, take_of_step rfl hstep, .intro _ .bracket⟩
  | bracket =>
      rw [List.append_assoc]
      exact ⟨_, rfl, .intro text .brackets⟩
  | brackets =>
      -- the first of three brackets is text by now
      have hstep : step (inside (f :: outer) root .content text .brackets) (.character ']') =
          some (inside (f :: outer) root .content (text ++ [']']) .brackets) :=
        step_character (c := ']') rfl text .brackets
      refine ⟨_, take_of_step rfl hstep, ?_⟩
      have hat : AtText (f :: outer) root (text ++ [']'] ++ [']', ']']) _ := .intro _ .brackets
      simpa using hat

/-- A character that is written as it is. -/
theorem AtText.take_plain {text : List Char} {s : Scanner} (hat : AtText (f :: outer) root text s)
    {c : Char} (hlegal : IsLegal c) (hescape : escape c = [c]) :
    ∃ s', s.take c = some s' ∧ AtText (f :: outer) root (text ++ [c]) s' := by
  have hless : c ≠ '<' := by rintro rfl; cases hescape
  have hgreater : c ≠ '>' := by rintro rfl; cases hescape
  have hreference : c ≠ '&' := by rintro rfl; cases hescape
  by_cases hbracket : c = ']'
  · subst hbracket
    exact hat.take_bracket
  by_cases hslash : c = '/'
  · subst hslash
    rw [hat.take_eq (by decide) (by decide)]
    exact ⟨_, rfl, .intro text .slash⟩
  · rw [hat.take_eq hgreater hbracket]
    have hcut : ({} : Lexer).read? c = some ([.ofContent c], {}) := by
      simp only [Lexer.read?, Lexer.readContent, hless, hslash, hbracket, if_false]
      rfl
    exact ⟨_, take_of_step hcut (step_ofContent hlegal hreference text _), atText_inside ..⟩

/-- A character that is written by the name that every document has for it. -/
theorem readAll_reference {name : List Char} {c : Char} (halpha : ∀ d ∈ name, d.isAlpha = true)
    (hreferent : referent? .first name = some c) (text rest : List Char) :
    (inside (f :: outer) root .content text).readAll ('&' :: (name ++ ';' :: rest)) =
      (inside (f :: outer) root .content (text ++ [c])).readAll rest := by
  have hampersand : (inside (f :: outer) root .content text).take '&' =
      some (inside (f :: outer) root (.reference []) text) := rfl
  have hend : step (inside (f :: outer) root (.reference name.reverse) text) .referenceEnd =
      some (inside (f :: outer) root .content (text ++ [c])) := by
    have hresolve (mode : Mode) :
        (inside (f :: outer) root mode text).resolve? name = some (.inl c) := by
      unfold resolve?
      split
      · exact congrArg (Option.map Sum.inl) hreferent
      · have hfirst : referent? (inside (f :: outer) root mode text).edition name =
          some c := hreferent
        rw [hfirst]
    simp only [step, mode_inside, stepReference, List.reverse_reverse, hresolve]
    rw [← push_inside]
    rfl
  rw [readAll_cons hampersand rfl, readAll_name _ (.inr (.inr rfl)) halpha, List.append_nil,
    readAll_cons (take_of_step rfl hend) rfl]

/-- One character of text, whichever way it is written. -/
theorem AtText.readAll_escape {text : List Char} {s : Scanner}
    (hat : AtText (f :: outer) root text s) {c : Char} (hlegal : IsLegal c) :
    ∃ s', AtText (f :: outer) root (text ++ [c]) s' ∧
      ∀ rest, s.readAll (escape c ++ rest) = s'.readAll rest := by
  have hreference (name : List Char) (halpha : ∀ d ∈ name, d.isAlpha = true)
      (hreferent : referent? .first name = some c) (hescape : escape c = '&' :: (name ++ [';'])) :
      ∃ s', AtText (f :: outer) root (text ++ [c]) s' ∧
        ∀ rest, s.readAll (escape c ++ rest) = s'.readAll rest := by
    refine ⟨_, atText_inside _ _ (text ++ [c]), fun rest => ?_⟩
    rw [hescape, List.cons_append, List.append_assoc, hat.readAll_cons (by decide) (by decide)]
    exact readAll_reference halpha hreferent text rest
  by_cases hless : c = '<'
  · subst hless
    exact hreference "lt".toList (List.all_eq_true.mp rfl) rfl rfl
  by_cases hgreater : c = '>'
  · subst hgreater
    exact hreference "gt".toList (List.all_eq_true.mp rfl) rfl rfl
  by_cases hampersand : c = '&'
  · subst hampersand
    exact hreference "amp".toList (List.all_eq_true.mp rfl) rfl rfl
  · have hescape : escape c = [c] := by simp only [escape, hless, hgreater, hampersand, if_false]
    obtain ⟨s', htake, hat'⟩ := hat.take_plain hlegal hescape
    refine ⟨s', hat', fun rest => ?_⟩
    rw [hescape, List.singleton_append, Scanner.readAll_cons htake hat'.pending]

/-- A whole text. -/
theorem AtText.readAll_text {text : List Char} {s : Scanner} (hat : AtText (f :: outer) root text s)
    {cs : List Char} (hlegal : ∀ c ∈ cs, IsLegal c) :
    ∃ s', AtText (f :: outer) root (text ++ cs) s' ∧
      ∀ rest, s.readAll (cs.flatMap escape ++ rest) = s'.readAll rest := by
  induction cs generalizing text s with
  | nil => exact ⟨s, (List.append_nil text).symm ▸ hat, fun _ => rfl⟩
  | cons c cs ih =>
      obtain ⟨s₁, hat₁, hread₁⟩ := hat.readAll_escape (hlegal c List.mem_cons_self)
      obtain ⟨s₂, hat₂, hread₂⟩ := ih hat₁ fun d hd => hlegal d (List.mem_cons_of_mem _ hd)
      rw [List.append_assoc, List.singleton_append] at hat₂
      refine ⟨s₂, hat₂, fun rest => ?_⟩
      rw [List.flatMap_cons, List.append_assoc, hread₁, hread₂]

/-- A run of text that is more than white space is kept. -/
theorem flush_inside {cs : List Char} (hrun : (cs.reverse.isEmpty || cs.all isSpace) = false) :
    (inside (f :: outer) root .content cs).flush =
      inside ({ f with children := .text (String.ofList cs) :: f.children } :: outer) root
        .content := by
  simp only [flush, inside, hrun, Bool.false_eq_true, if_false, place, List.reverse_reverse]
  rfl

/-- An open element that a text and a closing tag follow. -/
theorem readAll_textElement {tag : String} {cs : List Char} (htag : IsTag tag)
    (hname : f.name = ⟨none, tag.toList⟩) (hlegal : ∀ c ∈ cs, IsLegal c)
    (hblank : cs.all isSpace = false) (rest : List Char) :
    (inside (f :: outer) root .content).readAll
        (cs.flatMap escape ++ '<' :: '/' :: (tag.toList ++ '>' :: rest)) =
      ((inside outer root .content).place
        (.element tag (.text (String.ofList cs) :: f.children).reverse)).readAll rest := by
  obtain ⟨s, hat, hread⟩ := (atText_inside (f :: outer) root []).readAll_text hlegal
  have hless : (inside (f :: outer) root .content ([] ++ cs)).take '<' =
      some (inside (f :: outer) root .content cs .less) := rfl
  have hrun : (cs.reverse.isEmpty || cs.all isSpace) = false := by
    rw [hblank, Bool.or_false, List.isEmpty_reverse, List.isEmpty_eq_false_iff]
    rintro rfl
    cases hblank
  -- the closing tag ends the run of text, which is kept because it is more than white space
  have hstep : step (inside (f :: outer) root .content cs) .closingTagStart =
      some (inside ({ f with children := .text (String.ofList cs) :: f.children } :: outer) root
        (.endName [])) := by
    have hflush : step (inside (f :: outer) root .content cs) .closingTagStart =
        (inside (f :: outer) root .content cs).flush.goto (.endName []) := rfl
    rw [hflush, flush_inside hrun, goto_inside]
  rw [hread, hat.readAll_cons (by decide) (by decide), Scanner.readAll_cons hless rfl]
  exact readAll_closeTag (s := inside (f :: outer) root .content cs .less) htag rfl hstep hname rest

/-- The characters of a character-data section. -/
theorem readAll_section {seen cs : List Char} (hlegal : ∀ c ∈ cs, IsLegal c) (hbracket : ']' ∉ cs)
    (rest : List Char) :
    (inside (f :: outer) root (.characterData seen) [] .section).readAll (cs ++ rest) =
      (inside (f :: outer) root (.characterData (cs.reverse ++ seen)) []
        .section).readAll rest := by
  induction cs generalizing seen with
  | nil => rfl
  | cons c cs ih =>
      have hother : c ≠ ']' := fun heq => hbracket (heq ▸ List.mem_cons_self)
      have hcut : ({ mode := .section } : Lexer).read? c =
          some ([.character c], { mode := .section }) := by
        simp only [Lexer.read?, if_neg hother]
        rfl
      have hstep :
          step (inside (f :: outer) root (.characterData seen) [] .section) (.character c) =
          some (inside (f :: outer) root (.characterData (c :: seen)) [] .section) :=
        if_pos (hlegal c List.mem_cons_self)
      rw [List.cons_append, Scanner.readAll_cons (take_of_step hcut hstep) rfl,
        ih (fun d hd => hlegal d (List.mem_cons_of_mem _ hd)) fun hd =>
          hbracket (List.mem_cons_of_mem _ hd),
        List.reverse_cons, List.append_assoc, List.singleton_append]

/-- Reads characters as long as no entity of the document's own is replaced. -/
def readPlain (s : Scanner) : List Char → Option Scanner
  | [] => some s
  | c :: rest => (s.take c).bind fun s => if s.pending.isEmpty then s.readPlain rest else none

theorem readAll_of_readPlain {s s' : Scanner} {cs : List Char} (hplain : s.readPlain cs = some s')
    (rest : List Char) : s.readAll (cs ++ rest) = s'.readAll rest := by
  induction cs generalizing s with
  | nil =>
      cases hplain
      rfl
  | cons c cs ih =>
      obtain ⟨s₁, htake, hrest⟩ := Option.bind_eq_some_iff.mp hplain
      split at hrest
      next hpending =>
          rw [List.cons_append, Scanner.readAll_cons htake (List.isEmpty_iff.mp hpending), ih hrest]
      next => cases hrest

/-- An open element that a character-data section and a closing tag follow. -/
theorem readAll_sectionElement {tag : String} {cs : List Char} (htag : IsTag tag)
    (hname : f.name = ⟨none, tag.toList⟩) (hlegal : ∀ c ∈ cs, IsLegal c) (hbracket : ']' ∉ cs)
    (rest : List Char) :
    (inside (f :: outer) root .content).readAll
        ("<![CDATA[".toList ++
          (cs ++ ("]]>".toList ++ '<' :: '/' :: (tag.toList ++ '>' :: rest)))) =
      ((inside outer root .content).place
        (.element tag (.characterData (String.ofList cs) :: f.children).reverse)).readAll rest := by
  obtain ⟨filled, hfilled⟩ : ∃ filled : Frame,
      filled = { f with children := .characterData (String.ofList cs.reverse.reverse) ::
        f.children } := ⟨_, rfl⟩
  -- behind the section the scanner remembers whether it was white space, until the next mark
  obtain ⟨s, hs⟩ : ∃ s : Scanner, s = { inside (filled :: outer) root .content [] .less with
      isBlank := cs.reverse.all isSpace } := ⟨_, rfl⟩
  have hstart : (inside (f :: outer) root .content).readPlain "<![CDATA[".toList =
      some (inside (f :: outer) root (.characterData []) [] .section) := rfl
  have hend :
      (inside (f :: outer) root (.characterData cs.reverse) [] .section).readPlain "]]><".toList =
      some s := by
    rw [hs, hfilled]
    rfl
  have hstep : step { s with lexer := {} } .closingTagStart =
      some (inside (filled :: outer) root (.endName [])) := by
    rw [hs]
    rfl
  have hjoined : "]]>".toList ++ '<' :: '/' :: (tag.toList ++ '>' :: rest) =
      "]]><".toList ++ ('/' :: (tag.toList ++ '>' :: rest)) := rfl
  rw [readAll_of_readPlain hstart, readAll_section hlegal hbracket, hjoined, List.append_nil,
    readAll_of_readPlain hend, readAll_closeTag htag (hs ▸ rfl) hstep (hfilled ▸ hname), hfilled,
    List.reverse_reverse]

end Scanner

end VersionedBucket.Markup
