import VersionedBucket.Json.Reader
import VersionedBucket.Json.Writer
import VersionedBucket.Proofs.Percent
import Mathlib.Tactic.SplitIfs

/-! # JSON strings read back

A written string is read as the text it was made of, for every text. Each character is either
escaped or stands as its own bytes, and none of these bytes ends the string, starts an escape or is
a control character.
-/

namespace VersionedBucket.Json

open Text

theorem encodeChars_cons_of_ascii {c : Char} (hascii : c.toNat < 128) (cs : List Char) :
    encodeChars (c :: cs) = Reader.byte c :: encodeChars cs := by
  rw [encodeChars, List.flatMap_cons, utf8EncodeChar_of_ascii hascii]
  rfl

/-- The bytes of what stands between two marks, and what follows. -/
theorem encodeChars_enclosed {first last : Char} (hfirst : first.toNat < 128)
    (hlast : last.toNat < 128) (inner : List Char) (rest : List UInt8) :
    encodeChars (first :: inner ++ [last]) ++ rest =
      Reader.byte first :: (encodeChars inner ++ Reader.byte last :: rest) := by
  rw [List.cons_append, encodeChars_cons_of_ascii hfirst, encodeChars_append,
    encodeChars_cons_of_ascii hlast, List.cons_append, List.append_assoc]
  rfl

namespace Reader

variable {bs after value rest : List UInt8}

/-! ## One piece of a string -/

theorem stringBytes_escape {c : Char} (hescape : escape bs = .ok (c, after))
    (hafter : stringBytes after = .ok (value, rest)) :
    stringBytes (0x5C :: bs) = .ok (String.utf8EncodeChar c ++ value, rest) := by
  rw [stringBytes, if_neg (by decide), if_pos rfl]
  split
  next hfault =>
    rw [hescape] at hfault
    cases hfault
  next hread =>
    rw [hescape] at hread
    cases hread
    rw [hafter]
    rfl

/-- A byte that stands for itself in a string. -/
def IsPlain (b : UInt8) : Prop := b ≠ 0x22 ∧ b ≠ 0x5C ∧ ¬ b < 0x20

theorem stringBytes_plain {plain : List UInt8} (hplain : ∀ b ∈ plain, IsPlain b)
    (hbs : stringBytes bs = .ok (value, rest)) :
    stringBytes (plain ++ bs) = .ok (plain ++ value, rest) := by
  induction plain with
  | nil => exact hbs
  | cons b plain ih =>
      obtain ⟨⟨hquote, hslash, hcontrol⟩, hplain⟩ := List.forall_mem_cons.mp hplain
      rw [List.cons_append, stringBytes, if_neg hquote, if_neg hslash, if_neg hcontrol, ih hplain]
      rfl

/-- Characters outside ASCII are written with bytes outside ASCII. -/
theorem le_of_mem_utf8EncodeChar {c : Char} (hlarge : 128 ≤ c.toNat) {b : UInt8}
    (hb : b ∈ String.utf8EncodeChar c) : 128 ≤ b.toNat := by
  have hvalid : c.val.toNat < 0x110000 := by
    have := c.valid
    unfold UInt32.isValidChar Nat.isValidChar at this
    omega
  have hlarge : 128 ≤ c.val.toNat := hlarge
  simp only [String.utf8EncodeChar] at hb
  generalize c.val.toNat = v at *
  split_ifs at hb with hone htwo hthree
  · omega
  all_goals
    simp only [List.mem_cons, List.not_mem_nil, or_false] at hb
    rcases hb with rfl | rfl | rfl | rfl
  all_goals
    rw [Utf8.toNat_ofNat_of_lt (by omega)]
    omega

theorem isPlain_of_mem {c : Char} (hquote : c ≠ '"') (hslash : c ≠ '\\')
    (hcontrol : ¬ c.toNat < 0x20) {b : UInt8} (hb : b ∈ String.utf8EncodeChar c) : IsPlain b := by
  have hchar {d : Char} (hne : c ≠ d) : c.toNat ≠ d.toNat := fun heq => hne (Char.toNat_inj.mp heq)
  have hquote : c.toNat ≠ 0x22 := hchar hquote
  have hslash : c.toNat ≠ 0x5C := hchar hslash
  have hb : b.toNat ≠ 0x22 ∧ b.toNat ≠ 0x5C ∧ 0x20 ≤ b.toNat := by
    rcases Nat.lt_or_ge c.toNat 128 with hascii | hlarge
    · rw [utf8EncodeChar_of_ascii hascii, List.mem_singleton] at hb
      rw [hb, Utf8.toNat_ofNat_of_lt (by omega)]
      omega
    · have := le_of_mem_utf8EncodeChar hlarge hb
      omega
  simpa only [IsPlain, ne_eq, ← UInt8.toNat_inj, UInt8.lt_iff_toNat_lt, UInt8.reduceToNat,
    Nat.not_lt] using hb

/-! ## Strings -/

theorem stringBytes_letter (letter : Char) {c : Char} (hascii : letter.toNat < 128)
    (hletter : byte letter ≠ 0x75) (hescaped : escaped? (byte letter) = some c)
    (hbs : stringBytes bs = .ok (value, rest)) :
    stringBytes (encodeChars ['\\', letter] ++ bs) =
      .ok (String.utf8EncodeChar c ++ value, rest) := by
  rw [encodeChars_cons_of_ascii (by decide), encodeChars_cons_of_ascii hascii]
  refine stringBytes_escape ?_ hbs
  show escape (byte letter :: bs) = .ok (c, bs)
  rw [escape, if_neg hletter, hescaped]

/-- A control character is written with two zeros and the two digits of its number. -/
theorem controlEscape_ofNat : ∀ n < 32, Writer.controlEscape (Char.ofNat n) =
    ['\\', 'u', '0', '0', Nat.digitChar (n / 16), Nat.digitChar (n % 16)] := by
  decide

theorem hexValue?_digitChar : ∀ n < 16, hexValue? (byte (Nat.digitChar n)) = some n ∧
    (Nat.digitChar n).toNat < 128 := by
  decide

theorem escape_control {n : Nat} (hn : n < 32) (bs : List UInt8) :
    escape (0x75 :: 0x30 :: 0x30 :: byte (Nat.digitChar (n / 16)) ::
      byte (Nat.digitChar (n % 16)) :: bs) =
      .ok (Char.ofNat n, bs) := by
  have hdigits : fourDigits
      (0x30 :: 0x30 :: byte (Nat.digitChar (n / 16)) :: byte (Nat.digitChar (n % 16)) :: bs) =
        .ok (n, bs) := by
    have hzero : hexValue? 0x30 = some 0 := by decide
    simp only [fourDigits, hzero, (hexValue?_digitChar (n / 16) (by omega)).1,
      (hexValue?_digitChar (n % 16) (by omega)).1]
    congr 2
    omega
  rw [escape, if_pos rfl]
  show (fourDigits _ >>= _) = _
  rw [hdigits]
  show (if n < 0xD800 ∨ 0xDFFF < n then pure (Char.ofNat n) else _ : Reader Char) bs = _
  rw [if_pos (Or.inl (by omega))]
  rfl

/-- A character is read back from its written form, whatever follows. -/
theorem stringBytes_escape_append (c : Char) (hbs : stringBytes bs = .ok (value, rest)) :
    stringBytes (encodeChars (Writer.escape c) ++ bs) =
      .ok (String.utf8EncodeChar c ++ value, rest) := by
  unfold Writer.escape
  split_ifs with hquote hslash hback htab hline hfeed hreturn hcontrol
  · exact hquote ▸ stringBytes_letter '"' (by decide) (by decide) rfl hbs
  · exact hslash ▸ stringBytes_letter '\\' (by decide) (by decide) rfl hbs
  · exact hback ▸ stringBytes_letter 'b' (by decide) (by decide) rfl hbs
  · exact htab ▸ stringBytes_letter 't' (by decide) (by decide) rfl hbs
  · exact hline ▸ stringBytes_letter 'n' (by decide) (by decide) rfl hbs
  · exact hfeed ▸ stringBytes_letter 'f' (by decide) (by decide) rfl hbs
  · exact hreturn ▸ stringBytes_letter 'r' (by decide) (by decide) rfl hbs
  · have hescape := escape_control hcontrol bs
    rw [Char.ofNat_toNat] at hescape
    have hwritten := controlEscape_ofNat c.toNat hcontrol
    rw [Char.ofNat_toNat] at hwritten
    have hhigh := (hexValue?_digitChar (c.toNat / 16) (by omega)).2
    have hlow := (hexValue?_digitChar (c.toNat % 16) (by omega)).2
    rw [hwritten]
    simp only [encodeChars, List.flatMap_cons, List.flatMap_nil, utf8EncodeChar_of_ascii hhigh,
      utf8EncodeChar_of_ascii hlow]
    exact stringBytes_escape hescape hbs
  · rw [encodeChars, List.flatMap_singleton]
    exact stringBytes_plain (fun b hb => isPlain_of_mem hquote hslash hcontrol hb) hbs

theorem stringBytes_escapes (cs : List Char) (rest : List UInt8) :
    stringBytes (encodeChars (cs.flatMap Writer.escape) ++ byte '"' :: rest) =
      .ok (encodeChars cs, rest) := by
  induction cs with
  | nil =>
      show stringBytes (0x22 :: rest) = .ok ([], rest)
      rw [stringBytes, if_pos rfl]
  | cons c cs ih =>
      rw [List.flatMap_cons, encodeChars_append, List.append_assoc]
      exact stringBytes_escape_append c ih

/-- The text of a string is read back after the opening quote. -/
theorem stringBody_escapes (s : String) (rest : List UInt8) :
    stringBody (encodeChars (s.toList.flatMap Writer.escape) ++ byte '"' :: rest) =
      .ok (s, rest) := by
  simp only [stringBody, stringBytes_escapes, bind, Except.bind, Utf8.decode_encodeChars,
    String.ofList_toList]

end Reader
end VersionedBucket.Json
