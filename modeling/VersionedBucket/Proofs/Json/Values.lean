import VersionedBucket.Json.Value
import VersionedBucket.Proofs.Json.Strings
import VersionedBucket.Proofs.Text.Numeral
import Mathlib.Data.List.Forall2

/-! # JSON values read back

A reader reads a written value if it gives the value and stops behind it. Strings and objects
end with a mark of their own, whereas the end of a number shows only in what follows, so it is
asked that this is the end of the text or a mark that ends an item. Lists are read back if their
items are.
-/

namespace VersionedBucket.Json

open Text

namespace Writer

/-- Values behind a first one, each with its comma. -/
def continued (values : List (List Char)) : List Char := values.flatMap (',' :: ·)

theorem separated_cons (value : List Char) (rest : List (List Char)) :
    separated (value :: rest) = value ++ continued rest := by
  induction rest generalizing value with
  | nil => exact (List.append_nil value).symm
  | cons next rest ih =>
      show value ++ ',' :: separated (next :: rest) = _
      rw [ih, continued, continued, List.flatMap_cons, List.cons_append]

/-- Values as they stand in front of the first one or behind it. -/
def joined : (isFirst : Bool) → List (List Char) → List Char
  | true, values => separated values
  | false, values => continued values

theorem joined_nil (isFirst : Bool) : joined isFirst [] = [] := by cases isFirst <;> rfl

theorem encodeChars_joined_true (value : List Char) (more : List (List Char)) (rest : List UInt8) :
    encodeChars (joined true (value :: more)) ++ rest =
      encodeChars value ++ (encodeChars (continued more) ++ rest) := by
  rw [joined, separated_cons, encodeChars_append, List.append_assoc]

theorem encodeChars_joined_false (value : List Char) (more : List (List Char)) (rest : List UInt8) :
    encodeChars (joined false (value :: more)) ++ rest =
      Reader.byte ',' :: (encodeChars value ++ (encodeChars (continued more) ++ rest)) := by
  rw [joined, continued, List.flatMap_cons, List.cons_append, encodeChars_cons_of_ascii (by decide),
    encodeChars_append, List.cons_append, List.append_assoc]
  rfl

end Writer

namespace Reader

variable {α : Type} {bs rest : List UInt8}

/-- What may follow a value: nothing, or a mark that ends the item or what it is in. -/
def Closes (rest : List UInt8) : Prop :=
  ∀ b ∈ rest.head?, b = byte ',' ∨ b = byte ']' ∨ b = byte '}'

/-- A reader reads a written value and leaves what follows. -/
def Reads (read : Reader α) (written : List Char) (a : α) : Prop :=
  ∀ rest, Closes rest → read (encodeChars written ++ rest) = .ok (a, rest)

/-- A text or an object, by the mark that it begins with. -/
def Opens (written : List Char) : Prop := ∃ c cs, written = c :: cs ∧ (c = '"' ∨ c = '\x7b')

/-! ## Steps of a reader -/

theorem bind_of_ok {β : Type} {read : Reader α} {next : α → Reader β} {a : α}
    (hread : read bs = .ok (a, rest)) :
    (read >>= next) bs = next a rest := by
  show (read bs >>= fun result => next result.1 result.2) = next a rest
  rw [hread]
  rfl

/-- A step of a reader that is allowed as many rounds as there are bytes left. -/
theorem bind_of_ok_rounds {β : Type} (read : Nat → Reader α) {next : α → Reader β} {a : α}
    (hread : read (bs.length + 1) bs = .ok (a, rest)) :
    ((fun bs => read (bs.length + 1) bs : Reader α) >>= next) bs = next a rest := by
  show (read (bs.length + 1) bs >>= fun result => next result.1 result.2) = next a rest
  rw [hread]
  rfl

theorem Reads.map {β : Type} {read : Reader α} {written : List Char} {a : α}
    (hread : Reads read written a) (f : α → β) : Reads (do return f (← read)) written (f a) :=
  fun rest hrest => by
  rw [bind_of_ok (hread rest hrest)]
  rfl

theorem peekValue?_cons {b : UInt8} (hspace : isSpace b = false) (bs : List UInt8) :
    peekValue? (b :: bs) = .ok (some b, b :: bs) := by
  have hskip : skipSpace (b :: bs) = .ok ((), b :: bs) := by
    rw [skipSpace, List.dropWhile_cons_of_neg (by rw [hspace]; exact Bool.false_ne_true)]
  rw [peekValue?, bind_of_ok hskip]
  rfl

theorem advance_cons (b : UInt8) (bs : List UInt8) : advance (b :: bs) = .ok ((), bs) := rfl

theorem closes_nil : Closes [] := nofun

theorem closes_comma (bs : List UInt8) : Closes (byte ',' :: bs) := by
  rintro _ ⟨⟩
  exact Or.inl rfl

theorem closes_bracket (bs : List UInt8) : Closes (byte ']' :: bs) := by
  rintro _ ⟨⟩
  exact Or.inr (Or.inl rfl)

theorem closes_brace (bs : List UInt8) : Closes (byte '}' :: bs) := by
  rintro _ ⟨⟩
  exact Or.inr (Or.inr rfl)

theorem word_append {cs : List Char} (hascii : ∀ c ∈ cs, c.toNat < 128) (rest : List UInt8) :
    word cs (encodeChars cs ++ rest) = .ok ((), rest) := by
  induction cs with
  | nil => rfl
  | cons c cs ih =>
      obtain ⟨hc, hcs⟩ := List.forall_mem_cons.mp hascii
      rw [encodeChars_cons_of_ascii hc, List.cons_append, word, if_pos rfl, ih hcs]

/-! ## Strings and truth values -/

theorem reads_string (expected : Expected) (s : String) :
    Reads (string expected) (Writer.text s) s := by
  intro rest _
  rw [Writer.text, encodeChars_enclosed (by decide) (by decide), string,
    bind_of_ok (peekValue?_cons (by decide) _)]
  exact stringBody_escapes s rest

theorem opens_text (s : String) : Opens (Writer.text s) := ⟨'"', _, rfl, Or.inl rfl⟩

theorem reads_boolean (b : Bool) : Reads boolean (Writer.boolean b) b := by
  intro rest _
  have hascii : (Writer.boolean b).all (·.toNat < 128) = true := by cases b <;> decide
  have hword := word_append (by simpa using hascii) rest
  cases b with
  | true =>
      show boolean (byte 't' :: _) = _
      rw [boolean, bind_of_ok (peekValue?_cons (by decide) _)]
      exact bind_of_ok hword
  | false =>
      show boolean (byte 'f' :: _) = _
      rw [boolean, bind_of_ok (peekValue?_cons (by decide) _)]
      exact bind_of_ok hword

/-- A value that has nothing to do with `null` is read as being there. -/
theorem Reads.optional {read : Reader α} {written : List Char} {a : α}
    (hread : Reads read written a) (hopens : Opens written) :
    Reads (optional read) written (some a) := by
  intro rest hrest
  obtain ⟨c, cs, rfl, hc⟩ := hopens
  have hmark : c.toNat < 128 ∧ isSpace (byte c) = false ∧ some (byte c) ≠ some (byte 'n') := by
    rcases hc with rfl | rfl <;> decide
  have hbytes := hread rest hrest
  rw [encodeChars_cons_of_ascii hmark.1, List.cons_append] at hbytes ⊢
  rw [Reader.optional, bind_of_ok (peekValue?_cons hmark.2.1 _), if_neg hmark.2.2,
    bind_of_ok hbytes]
  rfl

theorem reads_optionalText (s : String) : Reads (Reader.optional text) (Writer.text s) (some s) :=
  (reads_string .text s).optional (opens_text s)

/-! ## Numbers -/

theorem digitValue_byte {c : Char} (hdigit : c.isDigit = true) :
    c.toNat < 128 ∧ isDigit (byte c) = true ∧ digitValue (byte c) = c.toNat - '0'.toNat := by
  simp only [Char.isDigit, Bool.and_eq_true, decide_eq_true_eq, ge_iff_le,
    UInt32.le_iff_toNat_le] at hdigit
  have hlow : 48 ≤ c.toNat := hdigit.1
  have hhigh : c.toNat ≤ 57 := hdigit.2
  have hbyte : (byte c).toNat = c.toNat := Utf8.toNat_ofNat_of_lt (by omega)
  refine ⟨by omega, ?_, by rw [digitValue, hbyte]; rfl⟩
  simp only [isDigit, Bool.and_eq_true, decide_eq_true_eq, UInt8.le_iff_toNat_le, hbyte,
    UInt8.reduceToNat]
  exact ⟨hlow, hhigh⟩

theorem encodeChars_of_allDigits {ds : List Char} (hdigits : AllDigits ds) :
    encodeChars ds = ds.map byte := by
  induction ds with
  | nil => rfl
  | cons c ds ih =>
      obtain ⟨hc, hds⟩ := List.forall_mem_cons.mp hdigits
      rw [encodeChars_cons_of_ascii (digitValue_byte hc).1, ih hds, List.map_cons]

/-- All digits are absorbed as long as the value stays in range. -/
theorem absorb_map_byte {ds : List Char} (hdigits : AllDigits ds) {value : Nat}
    (hgreatest : Nat.ofDigitChars 10 ds value ≤ greatestSignificand) :
    absorb value (ds.map byte) = (Nat.ofDigitChars 10 ds value, ds.length) := by
  induction ds generalizing value with
  | nil => rfl
  | cons c ds ih =>
      obtain ⟨hc, hds⟩ := List.forall_mem_cons.mp hdigits
      rw [Nat.ofDigitChars_cons, Nat.mul_comm] at hgreatest ⊢
      have hfits := Nat.le_trans (le_ofDigitChars ds _) hgreatest
      simp only [List.map_cons, absorb, (digitValue_byte hc).2.2, if_pos hfits, ih hds hgreatest,
        List.length_cons]

/-- What follows a number is none of the marks that could go on with it. -/
theorem Closes.not_mark (hrest : Closes rest) {b : UInt8} (hb : b ∈ rest.head?) :
    isDigit b = false ∧ b ≠ 0x2E ∧ b ≠ 0x65 ∧ b ≠ 0x45 := by
  rcases hrest b hb with rfl | rfl | rfl <;> decide

theorem takeDigits_decimal (n : Nat) (hrest : Closes rest) :
    takeDigits (encodeChars (decimal n) ++ rest) = ((decimal n).map byte, rest) := by
  have hdigits : ∀ b ∈ (decimal n).map byte, isDigit b = true := by
    intro b hb
    obtain ⟨c, hc, rfl⟩ := List.mem_map.mp hb
    exact (digitValue_byte (allDigits_decimal n c hc)).2.1
  have hend : rest.takeWhile isDigit = [] ∧ rest.dropWhile isDigit = rest := by
    cases rest with
    | nil => exact ⟨rfl, rfl⟩
    | cons b rest =>
        have hb := (hrest.not_mark (Option.mem_some_self b)).1
        simp [hb]
  rw [takeDigits, encodeChars_of_allDigits (allDigits_decimal n),
    List.takeWhile_append_of_pos hdigits, List.dropWhile_append_of_pos hdigits, hend.1, hend.2,
    List.append_nil]

theorem number_decimal {n : Nat} (hn : n ≤ greatestSignificand) (hrest : Closes rest) :
    number false (encodeChars (decimal n) ++ rest) = .ok (.natural (UInt64.ofNat n), rest) := by
  have hvalue : Nat.ofDigitChars 10 (decimal n) 0 = n := Nat.ofDigitChars_ten_toDigits
  have habsorb := absorb_map_byte (allDigits_decimal n) (hvalue.symm ▸ hn)
  rw [hvalue] at habsorb
  have htake := takeDigits_decimal n hrest
  cases hform : decimal n with
  | nil => exact absurd hform (decimal_ne_nil n)
  | cons c cs =>
      have hdigits : ∀ d ∈ c :: cs, d.isDigit = true := hform ▸ allDigits_decimal n
      have hzero : byte c = 0x30 → cs = [] := by
        intro hc
        have hascii := (digitValue_byte (hdigits c List.mem_cons_self)).1
        have hvalue : c.toNat = '0'.toNat := by
          rw [← Utf8.toNat_ofNat_of_lt (show c.toNat < 256 by omega)]
          exact congrArg UInt8.toNat hc
        exact eq_nil_of_decimal_eq (Char.toNat_inj.mp hvalue ▸ hform)
      rw [hform] at htake habsorb
      rw [List.map_cons] at htake habsorb
      have hlength : (byte c :: cs.map byte).length - (c :: cs).length = 0 := by simp
      simp only [number, htake, habsorb, hlength]
      have hplain : ¬ (byte c = 0x30 ∧ (!(cs.map byte).isEmpty) = true) := by
        rintro ⟨hc, hcs⟩
        rw [hzero hc] at hcs
        exact Bool.false_ne_true hcs
      rw [if_neg hplain]
      -- neither a fraction nor an exponent follows
      cases rest with
      | nil => rfl
      | cons b rest =>
          obtain ⟨-, hpoint, hsmall, hlarge⟩ := hrest.not_mark (Option.mem_some_self b)
          simp [hpoint, hsmall, hlarge, integer]

theorem isSpace_of_isDigit {b : UInt8} (hdigit : isDigit b = true) :
    isSpace b = false ∧ b ≠ byte '-' := by
  simp only [isDigit, Bool.and_eq_true, decide_eq_true_eq, UInt8.le_iff_toNat_le,
    UInt8.reduceToNat] at hdigit
  have hne {m : UInt8} (hm : m.toNat < 0x30) : b ≠ m := by
    rintro rfl
    omega
  refine ⟨?_, hne (by decide)⟩
  simp only [isSpace, Bool.or_eq_false_iff, beq_eq_false_iff_ne]
  exact ⟨⟨⟨hne (by decide), hne (by decide)⟩, hne (by decide)⟩, hne (by decide)⟩

theorem reads_natural (expected : Expected) {n limit : Nat} (hlimit : n ≤ limit)
    (hn : n ≤ greatestSignificand) :
    Reads (natural expected limit) (Writer.natural n) (UInt64.ofNat n) := by
  intro rest hrest
  have hnumber := number_decimal hn hrest
  cases hform : decimal n with
  | nil => exact absurd hform (decimal_ne_nil n)
  | cons c cs =>
      obtain ⟨hascii, hdigit, -⟩ :=
        digitValue_byte (allDigits_decimal n c (hform ▸ List.mem_cons_self))
      obtain ⟨hspace, hminus⟩ := isSpace_of_isDigit hdigit
      have hvalue : (UInt64.ofNat n).toNat = n := by
        rw [UInt64.toNat_ofNat']
        exact Nat.mod_eq_of_lt (Nat.lt_succ_of_le hn)
      rw [hform, encodeChars_cons_of_ascii hascii, List.cons_append] at hnumber
      rw [Writer.natural, hform, encodeChars_cons_of_ascii hascii, List.cons_append, natural,
        bind_of_ok (peekValue?_cons hspace _)]
      simp only [if_neg hminus, hdigit, if_true]
      rw [bind_of_ok hnumber]
      simp only [hvalue, if_pos hlimit]
      rfl

theorem reads_uint16 (n : UInt16) : Reads uint16 (Writer.natural n.toNat) n := by
  have hlt := n.toNat_lt
  have hread : Reads (natural .uint16 65535) (Writer.natural n.toNat) (UInt64.ofNat n.toNat) :=
    reads_natural .uint16 (by omega) (by rw [greatestSignificand]; omega)
  have hback : (UInt64.ofNat n.toNat).toUInt16 = n := by
    rw [← UInt16.toNat_inj, UInt64.toNat_toUInt16, UInt64.toNat_ofNat']
    omega
  have hsmall := hread.map UInt64.toUInt16
  rwa [hback] at hsmall

theorem reads_uint64 (n : UInt64) : Reads uint64 (Writer.natural n.toNat) n := by
  have hlt := n.toNat_lt
  have hread := reads_natural .uint64 (show n.toNat ≤ 18446744073709551615 by omega)
    (by rw [greatestSignificand]; omega)
  rwa [UInt64.ofNat_toNat] at hread

/-! ## Lists -/

/-- The end of a list, in front of its first item or behind one. -/
theorem hasItem_bracket (isFirst : Bool) (rest : List UInt8) :
    hasItem isFirst (byte ']' :: rest) = .ok (false, byte ']' :: rest) := by
  rw [hasItem, bind_of_ok (peekValue?_cons (by decide) _)]
  rfl

/-- The next item of a list, without the comma in front of it. -/
theorem hasItem_joined (isFirst : Bool) {value : List Char} (hopens : Opens value)
    (more : List (List Char)) (rest : List UInt8) :
    hasItem isFirst (encodeChars (Writer.joined isFirst (value :: more)) ++ rest) =
      .ok (true, encodeChars value ++ (encodeChars (Writer.continued more) ++ rest)) := by
  obtain ⟨c, cs, rfl, hc⟩ := hopens
  have hmark : c.toNat < 128 ∧ isSpace (byte c) = false ∧ byte c ≠ byte ']' := by
    rcases hc with rfl | rfl <;> decide
  have hbytes (bs : List UInt8) :
      encodeChars (c :: cs) ++ bs = byte c :: (encodeChars cs ++ bs) := by
    rw [encodeChars_cons_of_ascii hmark.1, List.cons_append]
  have hpeek (bs : List UInt8) : peekValue? (byte c :: bs) = .ok (some (byte c), byte c :: bs) :=
    peekValue?_cons hmark.2.1 bs
  cases isFirst with
  | true =>
      rw [Writer.encodeChars_joined_true, hbytes, hasItem, bind_of_ok (hpeek _)]
      simp only [if_neg hmark.2.2, if_true]
      rfl
  | false =>
      rw [Writer.encodeChars_joined_false, hbytes, hasItem,
        bind_of_ok (peekValue?_cons (by decide) _)]
      simp only [if_neg (show byte ',' ≠ byte ']' by decide), if_true, Bool.false_eq_true, if_false]
      rw [bind_of_ok (advance_cons ..), bind_of_ok (hpeek _)]
      simp only [if_neg hmark.2.2]
      rfl

/-- Behind a value stands the comma of the next one or the mark that ends them. -/
theorem closes_continued (hrest : Closes rest) (values : List (List Char)) :
    Closes (encodeChars (Writer.continued values) ++ rest) := by
  cases values with
  | nil => exact hrest
  | cons value values => exact closes_comma _

/-- The items of a list are read up to its end. -/
theorem items_joined {read : Reader α} {written : List (List Char)} {values : List α}
    (hread : List.Forall₂ (Reads read) written values) (hopens : ∀ value ∈ written, Opens value)
    {steps : Nat} (hsteps : written.length < steps) (isFirst : Bool) (rest : List UInt8) :
    items read steps isFirst (encodeChars (Writer.joined isFirst written) ++ byte ']' :: rest) =
      .ok (values, byte ']' :: rest) := by
  induction hread generalizing steps isFirst with
  | nil =>
      obtain ⟨steps, rfl⟩ := Nat.exists_eq_succ_of_ne_zero (Nat.ne_of_gt hsteps)
      rw [Writer.joined_nil, items]
      exact bind_of_ok (hasItem_bracket isFirst rest)
  | @cons value a written values hvalue _ ih =>
      obtain ⟨steps, rfl⟩ := Nat.exists_eq_succ_of_ne_zero (Nat.ne_zero_of_lt hsteps)
      obtain ⟨hfirst, hopens⟩ := List.forall_mem_cons.mp hopens
      have hcloses := closes_continued (closes_bracket rest) written
      rw [items, bind_of_ok (hasItem_joined isFirst hfirst written _)]
      refine (bind_of_ok (hvalue _ hcloses)).trans ?_
      refine (bind_of_ok (ih hopens (Nat.lt_of_succ_lt_succ hsteps) false)).trans ?_
      rfl

/-- Every value behind the first one takes a comma at least, so that there are rounds for all and
for the end. -/
theorem length_lt_joined (values : List (List Char)) (mark : UInt8) (rest : List UInt8) :
    values.length < (encodeChars (Writer.joined true values) ++ mark :: rest).length + 1 := by
  have hcontinued (values : List (List Char)) :
      values.length ≤ (encodeChars (Writer.continued values)).length := by
    induction values with
    | nil => exact Nat.le_refl 0
    | cons value values ih =>
        rw [Writer.continued, List.flatMap_cons, encodeChars_append,
          encodeChars_cons_of_ascii (by decide)]
        simp only [List.length_cons, List.length_append]
        rw [Writer.continued] at ih
        omega
  rw [List.length_append, List.length_cons]
  cases values with
  | nil => exact Nat.succ_pos _
  | cons value values =>
      have := hcontinued values
      rw [Writer.joined, Writer.separated_cons, encodeChars_append, List.length_append,
        List.length_cons]
      omega

/-- A list of written values is read as the list of what they are read as. -/
theorem reads_list {β : Type} {read : Reader α} {write : β → List Char} (back : β → α)
    (hread : ∀ b, Reads read (write b) (back b)) (hopens : ∀ b, Opens (write b)) {values : List β} :
    Reads (list read) (Writer.list (values.map write)) (values.map back) := by
  intro rest _
  have hvalues : List.Forall₂ (Reads read) (values.map write) (values.map back) := by
    rw [List.forall₂_map_left_iff, List.forall₂_map_right_iff]
    exact List.forall₂_same.mpr fun b _ => hread b
  have hitems := items_joined hvalues
    (List.forall_mem_map.mpr fun a _ => hopens a) (length_lt_joined _ (byte ']') rest) true rest
  have hend : endOfItems (byte ']' :: rest) = .ok ((), rest) := by
    rw [endOfItems, bind_of_ok (peekValue?_cons (by decide) _)]
    rfl
  rw [Writer.list, encodeChars_enclosed (by decide) (by decide), list,
    bind_of_ok (peekValue?_cons (by decide) _)]
  refine (bind_of_ok (advance_cons ..)).trans ?_
  refine (bind_of_ok_rounds (items read · true) hitems).trans ?_
  exact bind_of_ok hend

/-! ## What holds of everything that is read -/

theorem ensures_fail {fault : Fault} {P : α → Prop} : Ensures (fail fault : Reader α) P :=
  fun _ _ _ => nofun

theorem ensures_time {parse : String → Except Time.Fault Time.Instant} {P : Time.Instant → Prop}
    (hparse : ∀ s t, parse s = .ok t → P t) : Ensures (time parse) P := by
  unfold time
  apply Ensures.after
  intro s
  split
  next t ht => exact .pure (hparse s t ht)
  next => exact ensures_fail

theorem ensures_items {read : Reader α} {P : α → Prop} (hread : Ensures read P) (steps : Nat)
    (isFirst : Bool) : Ensures (items read steps isFirst) (∀ a ∈ ·, P a) := by
  induction steps generalizing isFirst with
  | zero => exact ensures_fail
  | succ steps ih =>
      apply Ensures.after
      intro goesOn
      cases goesOn with
      | false => exact .pure (List.forall_mem_nil P)
      | true =>
          refine .bind hread fun first hfirst => .bind (ih false) fun others hothers => .pure ?_
          exact List.forall_mem_cons.mpr ⟨hfirst, hothers⟩

theorem ensures_list {read : Reader α} {P : α → Prop} (hread : Ensures read P) :
    Ensures (list read) (∀ a ∈ ·, P a) := by
  unfold list
  apply Ensures.after
  intro next
  split
  · exact ensures_fail
  · split
    · apply Ensures.after
      intro _
      refine .bind (P := (∀ a ∈ ·, P a)) ?_ fun values hvalues => .after fun _ => .pure hvalues
      exact fun bs => ensures_items hread (bs.length + 1) true bs
    · exact .after fun _ => ensures_fail

end Reader
end VersionedBucket.Json
