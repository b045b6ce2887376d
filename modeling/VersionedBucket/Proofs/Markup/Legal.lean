import VersionedBucket.Markup.Document
import VersionedBucket.Proofs.Markup.Node

/-! # The text of a tree is legal

A document that is read has no other characters in its text than its edition admits, be they written
as they are, by reference or in a section. What the scanner holds of the tree is legal to begin
with, each token keeps it so, and so does the text of entities, which is read like any other.
-/

namespace VersionedBucket.Markup

/-- The characters may stand in a document of the edition. -/
def Edition.Admits (edition : Edition) (cs : List Char) : Prop := ∀ c ∈ cs, edition.isLegal c = true

instance (edition : Edition) (cs : List Char) : Decidable (edition.Admits cs) :=
  List.decidableBAll (fun c => edition.isLegal c = true) cs

/-- All text in the node is legal. -/
inductive Node.Legal (edition : Edition) : Node → Prop where
  | element {tag : String} {children : List Node} (hchildren : ∀ n ∈ children, Legal edition n) :
      Legal edition (.element tag children)
  | text {value : String} (hvalue : edition.Admits value.toList) : Legal edition (.text value)
  | characterData {value : String} (hvalue : edition.Admits value.toList) :
      Legal edition (.characterData value)
  | comment {value : String} : Legal edition (.comment value)
  | instruction {target : String} {value : Option String} :
      Legal edition (.instruction target value)

/-- All text in the element is legal. -/
def Element.Legal (edition : Edition) (e : Element) : Prop := ∀ n ∈ e.children, n.Legal edition

/-- What has been read of a section is legal. -/
def Mode.Legal (edition : Edition) : Mode → Prop
  | .characterData value => edition.Admits value
  | _ => True

section Characters

variable {edition : Edition}

theorem Edition.Admits.reverse {cs : List Char} (hcs : edition.Admits cs) :
    edition.Admits cs.reverse :=
  fun c hc => hcs c (List.mem_reverse.mp hc)

theorem Edition.Admits.append {cs ds : List Char} (hcs : edition.Admits cs)
    (hds : edition.Admits ds) :
    edition.Admits (cs ++ ds) :=
  List.forall_mem_append.mpr ⟨hcs, hds⟩

theorem Edition.admits_singleton {c : Char} (hc : edition.isLegal c = true) : edition.Admits [c] :=
  List.forall_mem_singleton.mpr hc

theorem Edition.isLegal_of_isPlain {c : Char} (hplain : edition.isPlain c = true) :
    edition.isLegal c = true :=
  (Bool.and_eq_true_iff.mp hplain).1

/-- The marks are legal text. -/
theorem Token.admits_spelling {t : Token} (hmark : ∀ c, t ≠ .character c) :
    edition.Admits t.spelling := by
  cases t with
  | character c => exact absurd rfl (hmark c)
  | quote q => cases edition <;> cases q <;> decide
  | _ => cases edition <;> decide

theorem isLegal_of_numbered? {text : List Char} {c : Char}
    (hnumbered : numbered? edition text = some c) :
    edition.isLegal c = true := by
  have hchecked {n : Nat} (hnumber : (if h : n.isValidChar then
        if edition.isLegal (Char.ofNatAux n h) then some (Char.ofNatAux n h) else none
      else none) = some c) :
      edition.isLegal c = true := by
    obtain ⟨_, hnumber⟩ := Option.dite_none_right_eq_some.mp hnumber
    obtain ⟨hlegal, hsame⟩ := Option.ite_none_right_eq_some.mp hnumber
    exact Option.some.inj hsame ▸ hlegal
  unfold numbered? at hnumbered
  dsimp only at hnumbered
  split at hnumbered
  · obtain ⟨_, _, hnumber⟩ := Option.bind_eq_some_iff.mp hnumbered
    exact hchecked hnumber
  · obtain ⟨_, _, hnumber⟩ := Option.bind_eq_some_iff.mp hnumbered
    exact hchecked hnumber

theorem isLegal_of_predefined? {name : List Char} {c : Char} (hnamed : predefined? name = some c) :
    edition.isLegal c = true := by
  unfold predefined? at hnamed
  repeat' split at hnamed
  all_goals
    cases hnamed
    try cases edition <;> decide

/-- Only legal characters can be referred to. -/
theorem isLegal_of_referent? {name : List Char} {c : Char}
    (hreferent : referent? edition name = some c) :
    edition.isLegal c = true := by
  unfold referent? at hreferent
  split at hreferent
  · exact isLegal_of_numbered? hreferent
  · exact isLegal_of_predefined? hreferent

end Characters

namespace Scanner

variable {edition : Edition} {s : Scanner} {t : Token}

/-- All text that the scanner has found is legal. -/
structure Holds (edition : Edition) (s : Scanner) : Prop where
  declared : s.edition = edition
  run : edition.Admits s.run
  frames : ∀ f ∈ s.frames, ∀ n ∈ f.children, n.Legal edition
  root : ∀ e ∈ s.root, e.Legal edition

/-- All text that the scanner has found is legal, and so is what it is reading. -/
structure Sound (edition : Edition) (s : Scanner) : Prop extends Holds edition s where
  mode : s.mode.Legal edition

/-- If there is a scanner, it is sound. -/
def Leads (edition : Edition) (step : Step) : Prop := ∀ s ∈ step, s.Sound edition

theorem leads_none : Leads edition none := by
  intro s hs
  cases hs

theorem Sound.leads (hs : s.Sound edition) : Leads edition (some s) := by
  intro s' hs'
  cases hs'
  exact hs

theorem Holds.leads_goto {mode : Mode} (hs : s.Holds edition) (hmode : mode.Legal edition) :
    Leads edition (s.goto mode) :=
  Sound.leads ⟨⟨hs.declared, hs.run, hs.frames, hs.root⟩, hmode⟩

theorem leads_bind {α : Type} {found : Option α} {next : α → Step}
    (hnext : ∀ a ∈ found, Leads edition (next a)) :
    Leads edition (found >>= next) := by
  cases found with
  | none => exact leads_none
  | some a => exact hnext a rfl

theorem leads_ite {condition : Prop} [Decidable condition] {first second : Step}
    (hfirst : condition → Leads edition first) (hsecond : ¬ condition → Leads edition second) :
    Leads edition (if condition then first else second) := by
  split
  next hcondition => exact hfirst hcondition
  next hcondition => exact hsecond hcondition

theorem leads_guard {condition : Prop} [Decidable condition] {step : Step}
    (hstep : condition → Leads edition step) : Leads edition (if condition then step else none) :=
  leads_ite hstep fun _ => leads_none

theorem leads_unless {condition : Prop} [Decidable condition] {step : Step}
    (hstep : ¬ condition → Leads edition step) : Leads edition (if condition then none else step) :=
  leads_ite (fun _ => leads_none) hstep

/-! ## What changes the tree -/

theorem Holds.place {n : Node} (hs : s.Holds edition) (hn : n.Legal edition) :
    (s.place n).Holds edition := by
  unfold Scanner.place
  split
  next f outer hframes =>
      have hf := hs.frames
      rw [hframes] at hf
      obtain ⟨hfirst, houter⟩ := List.forall_mem_cons.mp hf
      exact ⟨hs.declared, hs.run,
        List.forall_mem_cons.mpr ⟨List.forall_mem_cons.mpr ⟨hn, hfirst⟩, houter⟩, hs.root⟩
  next =>
      refine ⟨hs.declared, hs.run, hs.frames, fun e he => ?_⟩
      have he : (s.root <|> n.element?) = some e := he
      cases hroot : s.root with
      | some first =>
          rw [hroot] at he
          exact hs.root e (hroot.trans he)
      | none =>
          rw [hroot] at he
          have he : n.element? = some e := he
          cases hn with
          | element hchildren =>
              cases he
              exact hchildren
          | _ => cases he

theorem Holds.push {cs : List Char} (hs : s.Holds edition) (hcs : edition.Admits cs) :
    (s.push cs).Holds edition :=
  ⟨hs.declared, hcs.reverse.append hs.run, hs.frames, hs.root⟩

theorem Holds.flush (hs : s.Holds edition) : s.flush.Holds edition := by
  have hcleared : Holds edition { s with run := [], isBlank := true } :=
    ⟨hs.declared, nofun, hs.frames, hs.root⟩
  unfold Scanner.flush
  dsimp only
  split
  · exact hcleared
  · refine hcleared.place (.text ?_)
    rw [String.toList_ofList]
    exact hs.run.reverse

/-! ## Tags -/

theorem Holds.leads_openTag (hs : s.Holds edition) (tag : Tag) : Leads edition (s.openTag tag) := by
  refine leads_guard fun _ => Holds.leads_goto ⟨hs.declared, hs.run, ?_, hs.root⟩ trivial
  exact List.forall_mem_cons.mpr ⟨List.forall_mem_nil _, hs.frames⟩

theorem Holds.leads_placeTag (hs : s.Holds edition) (tag : Tag) : Leads edition (s.placeTag tag) :=
  leads_guard fun _ => (hs.place (.element (List.forall_mem_nil _))).leads_goto trivial

theorem Holds.leads_closeTag (hs : s.Holds edition) (name : Name) :
    Leads edition (s.closeTag name) := by
  unfold closeTag
  split
  next f outer hframes =>
      have hf := hs.frames
      rw [hframes] at hf
      obtain ⟨hchildren, houter⟩ := List.forall_mem_cons.mp hf
      have houtside : Holds edition { s with frames := outer } :=
        ⟨hs.declared, hs.run, houter, hs.root⟩
      refine leads_guard fun _ => ?_
      exact (houtside.place
        (.element fun n hn => hchildren n (List.mem_reverse.mp hn))).leads_goto trivial
  next => exact leads_none

theorem Holds.leads_stepTagEnd (hs : s.Holds edition) (tag : Tag) (t : Token) :
    Leads edition (s.stepTagEnd tag t) := by
  unfold stepTagEnd
  split
  · exact hs.leads_openTag tag
  · exact hs.leads_placeTag tag
  · exact leads_guard fun _ => hs.leads_goto trivial
  · exact leads_none

theorem leads_stepName {value : List Char} {more : List Char → Step} {done : Step}
    (hmore : ∀ value, Leads edition (more value)) (hdone : Leads edition done) :
    Leads edition (stepName value t more done) := by
  unfold stepName
  split
  · exact leads_ite (fun _ => hmore _) fun _ => hdone
  · exact hdone

theorem Holds.leads_stepEndTag (hs : s.Holds edition) (name : Name) (t : Token) :
    Leads edition (s.stepEndTag name t) := by
  unfold stepEndTag
  split
  · exact hs.leads_closeTag name
  · exact leads_guard fun _ => hs.leads_goto trivial
  · exact leads_none

theorem Holds.leads_stepAttributeEquals (hs : s.Holds edition) (tag : Tag) (name : Name)
    (t : Token) :
    Leads edition (s.stepAttributeEquals tag name t) := by
  unfold stepAttributeEquals
  split
  · exact hs.leads_goto trivial
  · exact leads_guard fun _ => hs.leads_goto trivial
  · exact leads_none

theorem Holds.leads_stepAttributeQuote (hs : s.Holds edition) (tag : Tag) (name : Name)
    (t : Token) :
    Leads edition (s.stepAttributeQuote tag name t) := by
  unfold stepAttributeQuote
  split
  · exact hs.leads_goto trivial
  · exact leads_guard fun _ => hs.leads_goto trivial
  · exact leads_none

theorem Holds.leads_stepAttributeValue (hs : s.Holds edition) (a : Attribute) (t : Token) :
    Leads edition (s.stepAttributeValue a t) := by
  unfold stepAttributeValue
  split
  · exact leads_none
  · exact leads_none
  · exact hs.leads_goto trivial
  · exact leads_guard fun _ => hs.leads_goto trivial
  · exact leads_ite (fun _ => leads_bind fun _ _ => hs.leads_goto trivial) fun _ =>
      hs.leads_goto trivial

theorem Holds.leads_stepAttributeReference (hs : s.Holds edition) (a : Attribute) (name : List Char)
    (t : Token) :
    Leads edition (s.stepAttributeReference a name t) := by
  unfold stepAttributeReference
  split
  · split
    · exact hs.leads_goto trivial
    · exact hs.leads_goto trivial
    · exact leads_none
  · exact leads_guard fun _ => hs.leads_goto trivial
  · exact leads_none

/-! ## Content -/

theorem Holds.leads_stepContent (hs : s.Holds edition) (hmode : s.mode.Legal edition) (t : Token) :
    Leads edition (s.stepContent t) := by
  have hsound {s' : Scanner} (hs' : s'.Holds edition) (hsame : s'.mode = s.mode) :
      Leads edition (some s') :=
    Sound.leads ⟨hs', hsame ▸ hmode⟩
  have hflush := hs.flush
  cases t with
  | character c =>
      refine leads_ite (fun _ => leads_guard fun _ => hsound hs rfl) fun _ => ?_
      refine leads_guard fun hplain => hsound (hs.push (Edition.admits_singleton ?_)) rfl
      exact Edition.isLegal_of_isPlain (hs.declared ▸ hplain)
  | referenceStart => exact leads_unless fun _ => hs.leads_goto trivial
  | tagStart =>
      exact Holds.leads_goto ⟨hflush.declared, hflush.run, hflush.frames, hflush.root⟩ trivial
  | closingTagStart => exact leads_unless fun _ => hflush.leads_goto trivial
  | commentStart => exact hflush.leads_goto trivial
  | sectionStart => exact leads_unless fun _ => hflush.leads_goto nofun
  | instructionStart => exact hflush.leads_goto trivial
  | doctypeStart =>
      refine leads_guard fun _ => ?_
      exact Holds.leads_goto ⟨hs.declared, hs.run, hs.frames, hs.root⟩ trivial
  | declarationStart => exact leads_none
  | sectionEnd => exact leads_none
  | _ => exact leads_unless fun _ => hsound (hs.push (Token.admits_spelling nofun)) rfl

theorem Holds.isLegal_of_resolve? (hs : s.Holds edition) {name : List Char} {c : Char}
    (hresolve : s.resolve? name = some (.inl c)) : edition.isLegal c = true := by
  rw [← hs.declared]
  unfold resolve? at hresolve
  split at hresolve
  · obtain ⟨_, hreferent, heq⟩ := Option.map_eq_some_iff.mp hresolve
    cases heq
    exact isLegal_of_referent? hreferent
  · split at hresolve
    next hreferent =>
        cases hresolve
        exact isLegal_of_referent? hreferent
    next =>
        obtain ⟨_, _, heq⟩ := Option.map_eq_some_iff.mp hresolve
        cases heq

theorem Holds.leads_stepReference (hs : s.Holds edition) (name : List Char) (t : Token) :
    Leads edition (s.stepReference name t) := by
  unfold stepReference
  split
  · split
    next c hresolve =>
        exact (hs.push
          (Edition.admits_singleton (hs.isLegal_of_resolve? hresolve))).leads_goto trivial
    · exact Holds.leads_goto ⟨hs.declared, hs.run, hs.frames, hs.root⟩ trivial
    · exact leads_none
  · exact leads_guard fun _ => hs.leads_goto trivial
  · exact leads_none

theorem Holds.leads_stepComment (hs : s.Holds edition) (value : List Char) (t : Token) :
    Leads edition (s.stepComment value t) := by
  unfold stepComment
  split
  · exact (hs.place .comment).leads_goto trivial
  · exact leads_guard fun _ => hs.leads_goto trivial
  · exact leads_none

theorem Holds.leads_stepCharacterData (hs : s.Holds edition) {value : List Char}
    (hvalue : edition.Admits value) (t : Token) : Leads edition (s.stepCharacterData value t) := by
  unfold stepCharacterData
  split
  · have hplaced : (s.place (.characterData (String.ofList value.reverse))).Holds edition := by
      refine hs.place (.characterData ?_)
      rw [String.toList_ofList]
      exact hvalue.reverse
    exact Holds.leads_goto ⟨hplaced.declared, hplaced.run, hplaced.frames, hplaced.root⟩ trivial
  · refine leads_guard fun hlegal => hs.leads_goto ?_
    exact List.forall_mem_cons.mpr ⟨hs.declared ▸ hlegal, hvalue⟩
  · exact leads_none

theorem Holds.leads_stepTarget (hs : s.Holds edition) (value : List Char) (t : Token) :
    Leads edition (s.stepTarget value t) := by
  unfold stepTarget
  dsimp only
  split
  · exact leads_unless fun _ => (hs.place .instruction).leads_goto trivial
  · refine leads_ite (fun _ => hs.leads_goto trivial) fun _ => ?_
    exact leads_guard fun _ => hs.leads_goto trivial
  · exact leads_none

theorem Holds.leads_stepInstruction (hs : s.Holds edition) (target value : List Char) (t : Token) :
    Leads edition (s.stepInstruction target value t) := by
  unfold stepInstruction
  split
  · exact (hs.place .instruction).leads_goto trivial
  · exact leads_guard fun _ => hs.leads_goto trivial
  · exact hs.leads_goto trivial

/-! ## The document type -/

theorem Holds.declare (hs : s.Holds edition) (name value : List Char) :
    (s.declare name value).Holds edition := by
  unfold Scanner.declare
  split
  · exact hs
  · exact ⟨hs.declared, hs.run, hs.frames, hs.root⟩

theorem Holds.leads_within (hs : s.Holds edition) (mode : SubsetMode) :
    Leads edition (s.within mode) :=
  hs.leads_goto trivial

theorem Holds.leads_stepBetween (hs : s.Holds edition) (t : Token) :
    Leads edition (s.stepBetween t) := by
  unfold stepBetween
  split
  · exact hs.leads_goto trivial
  · exact hs.leads_within _
  · exact hs.leads_within _
  · exact hs.leads_within _
  · exact leads_none
  · exact leads_none
  · exact hs.leads_within _
  · exact hs.leads_within _

theorem Holds.leads_stepKeyword (hs : s.Holds edition) (value : List Char) (t : Token) :
    Leads edition (s.stepKeyword value t) := by
  unfold stepKeyword
  split
  · refine leads_ite (fun _ => hs.leads_within _) fun _ => leads_unless fun _ => ?_
    refine leads_ite (fun _ => hs.leads_within _) fun _ => ?_
    exact leads_guard fun _ => hs.leads_within _
  · exact leads_none

theorem Holds.leads_stepEntityName (hs : s.Holds edition) (mode : SubsetMode) (start : List Char)
    (c : Char) :
    Leads edition (s.stepEntityName mode start c) :=
  leads_ite (fun _ => hs.leads_within _) fun _ => leads_guard fun _ => hs.leads_within _

theorem Holds.leads_stepBeforeValue (hs : s.Holds edition) (name : List Char) (t : Token) :
    Leads edition (s.stepBeforeValue name t) := by
  unfold stepBeforeValue
  split
  · exact hs.leads_within _
  · refine leads_ite (fun _ => hs.leads_within _) fun _ => ?_
    exact leads_guard fun _ => (hs.declare name []).leads_within _
  · exact leads_none

theorem Holds.leads_stepEntityValue (hs : s.Holds edition) (e : EntityValue) (t : Token) :
    Leads edition (s.stepEntityValue e t) := by
  unfold stepEntityValue
  split
  · exact (hs.declare _ _).leads_within _
  · refine leads_ite (fun _ => hs.leads_within _) fun _ =>
      leads_ite (fun _ => hs.leads_within _) fun _ => ?_
    exact leads_guard fun _ => hs.leads_within _
  · exact leads_none

theorem leads_stepParameter {name : List Char} {more done : List Char → Step}
    (hmore : ∀ name, Leads edition (more name)) (hdone : ∀ text, Leads edition (done text)) :
    Leads edition (s.stepParameter name t more done) := by
  refine leads_ite (fun _ => leads_bind fun text _ => hdone text) fun _ => ?_
  split
  · exact leads_guard fun _ => hmore _
  · exact leads_none

theorem Holds.leads_stepSubset (hs : s.Holds edition) (t : Token) (mode : SubsetMode) :
    Leads edition (s.stepSubset t mode) := by
  cases mode with
  | between => exact hs.leads_stepBetween t
  | quoted quote => exact hs.leads_within _
  | comment => exact hs.leads_within _
  | keyword value => exact hs.leads_stepKeyword value t
  | beforeName =>
      unfold stepSubset
      dsimp only
      split
      · exact hs.leads_within _
      · exact hs.leads_stepEntityName _ _ _
      · exact leads_none
  | beforeParameterName =>
      unfold stepSubset
      dsimp only
      split
      · exact hs.leads_stepEntityName _ _ _
      · exact leads_none
  | name value =>
      unfold stepSubset
      dsimp only
      split
      · refine leads_ite (fun _ => hs.leads_within _) fun _ => ?_
        exact leads_guard fun _ => hs.leads_within _
      · exact leads_none
  | beforeValue name => exact hs.leads_stepBeforeValue name t
  | value e => exact hs.leads_stepEntityValue e t
  | valueAmpersand e =>
      unfold stepSubset
      dsimp only
      split
      · exact hs.leads_within _
      · exact leads_guard fun _ => hs.leads_within _
      · exact leads_none
  | valueNumber e digits =>
      unfold stepSubset
      dsimp only
      split
      · exact leads_bind fun _ _ => hs.leads_within _
      · exact leads_guard fun _ => hs.leads_within _
      · exact leads_none
  | valueParameter e name =>
      exact leads_stepParameter (fun _ => hs.leads_within _) fun _ => hs.leads_within _
  | rest => exact hs.leads_within _
  | parameter name =>
      refine leads_stepParameter (fun _ => hs.leads_within _) fun text => Holds.leads_within ?_ _
      exact ⟨hs.declared, hs.run, hs.frames, hs.root⟩

/-! ## Whole documents -/

theorem Sound.leads_step (hs : s.Sound edition) (t : Token) : Leads edition (s.step t) := by
  have hholds : s.Holds edition := hs.toHolds
  have hlegal := hs.mode
  unfold step
  split
  next => exact hholds.leads_stepContent hlegal t
  next => exact hholds.leads_stepReference _ t
  next => exact hholds.leads_stepComment _ t
  next hmode =>
      rw [hmode] at hlegal
      exact hholds.leads_stepCharacterData hlegal t
  next => exact hholds.leads_stepTarget _ t
  next => exact hholds.leads_stepInstruction _ _ t
  next =>
    exact leads_stepName (fun _ => hholds.leads_goto trivial)
      (leads_bind fun _ _ => hholds.leads_stepTagEnd _ t)
  next => exact leads_stepName (fun _ => hholds.leads_goto trivial) (hholds.leads_stepTagEnd _ t)
  next =>
      refine leads_stepName (fun _ => hholds.leads_goto trivial) (leads_bind fun _ _ => ?_)
      exact leads_unless fun _ => hholds.leads_stepAttributeEquals _ _ t
  next => exact hholds.leads_stepAttributeEquals _ _ t
  next => exact hholds.leads_stepAttributeQuote _ _ t
  next => exact hholds.leads_stepAttributeValue _ t
  next => exact hholds.leads_stepAttributeReference _ _ t
  next => exact hholds.leads_stepTagEnd _ t
  next => exact leads_stepName (fun _ => hholds.leads_goto trivial) (leads_bind fun _ _ =>
    hholds.leads_stepEndTag _ t)
  next => exact hholds.leads_stepEndTag _ t
  next => exact hholds.leads_stepSubset t _

theorem Sound.leads_foldlM (hs : s.Sound edition) (tokens : List Token) :
    Leads edition (tokens.foldlM step s) := by
  induction tokens generalizing s with
  | nil => exact hs.leads
  | cons t tokens ih =>
      rw [List.foldlM_cons]
      exact leads_bind fun s' hs' => ih (hs.leads_step t s' hs')

theorem Sound.leads_take (hs : s.Sound edition) (c : Char) : Leads edition (s.take c) := by
  unfold Scanner.take
  split
  next tokens lexer _ =>
      have hcut : Sound edition { s with lexer } :=
        ⟨⟨hs.declared, hs.run, hs.frames, hs.root⟩, hs.mode⟩
      exact hcut.leads_foldlM tokens
  next => exact leads_none

/-- The text of entities is read like any other, so it comes to nothing else. -/
theorem Sound.leads_readReplacing (hs : s.Sound edition) (budget : Nat) (text : List Char) :
    Leads edition (s.readReplacing budget text) := by
  fun_induction readReplacing s budget text with
  | case1 => exact hs.leads
  | case2 => exact leads_none
  | case3 s budget c rest s' htake _ ih => exact ih (hs.leads_take c s' htake)
  | case4 => exact leads_none
  | case5 s c rest s' htake _ budget _ ih =>
      have hs' := hs.leads_take c s' htake
      exact ih ⟨⟨hs'.declared, hs'.run, hs'.frames, hs'.root⟩, hs'.mode⟩
  | case6 => exact leads_none

theorem Sound.leads_readAll (hs : s.Sound edition) (cs : List Char) :
    Leads edition (s.readAll cs) := by
  induction cs generalizing s with
  | nil => exact hs.leads
  | cons c cs ih =>
      exact leads_bind fun s' hs' => ih (hs.leads_readReplacing replacementLimit [c] s' hs')

end Scanner

namespace Element

variable {edition : Edition} {e : Element}

/-- The text in the root of a document is legal in the document's edition. -/
theorem legal_of_ofDocument? {bs : List UInt8} {cs : List Char}
    (hcharacters : characters bs = some (edition, cs)) (hread : ofDocument? bs = some e) :
    e.Legal edition := by
  rw [ofDocument?, hcharacters] at hread
  obtain ⟨s, hs, hfinish⟩ : ∃ s, Scanner.readAll { edition } cs = some s ∧ s.finish? = some e :=
    Option.bind_eq_some_iff.mp hread
  have hstart : Scanner.Sound edition { edition } := ⟨⟨rfl, nofun, nofun, nofun⟩, trivial⟩
  have hsound := hstart.leads_readAll cs s hs
  unfold Scanner.finish? at hfinish
  split at hfinish
  · exact hsound.root e hfinish
  · cases hfinish

theorem Legal.of_mem_elements (he : e.Legal edition) {child : Element}
    (hchild : child ∈ Node.elements e.children) :
    child.Legal edition := by
  obtain ⟨n, hn, helement⟩ := List.mem_filterMap.mp hchild
  have hlegal := he n hn
  cases hlegal with
  | element hchildren =>
      cases helement
      exact hchildren
  | _ => cases helement

theorem Legal.admits_text (he : e.Legal edition) : edition.Admits e.text.toList := by
  intro c hc
  rw [text, String.toList_join, List.flatMap_map] at hc
  obtain ⟨n, hn, hown⟩ := List.mem_flatMap.mp hc
  have hlegal := he n hn
  cases hlegal with
  | text hvalue => exact hvalue c hown
  | characterData hvalue => exact hvalue c hown
  | _ => cases hown

theorem Legal.admits_of_mem_texts (he : e.Legal edition) {tag s : String} (hs : s ∈ e.texts tag) :
    edition.Admits s.toList := by
  obtain ⟨child, hchild, rfl⟩ := List.mem_map.mp hs
  exact (he.of_mem_elements (List.mem_filter.mp hchild).1).admits_text

end Element

end VersionedBucket.Markup
