import VersionedBucket.Percent
import VersionedBucket.Proofs.Text.Utf8

/-! # Percent coding undone

What is written in percent coding is read as it was, for every text: the written form is ASCII, and
each of its pieces stands for one byte. Under any other coding a value is left alone.
-/

namespace VersionedBucket

namespace Text

theorem utf8EncodeChar_of_ascii {c : Char} (hascii : c.toNat < 128) :
    String.utf8EncodeChar c = [UInt8.ofNat c.toNat] :=
  if_pos (Nat.le_of_lt_succ hascii)

theorem encodeChars_append (first second : List Char) :
    encodeChars (first ++ second) = encodeChars first ++ encodeChars second :=
  List.flatMap_append

end Text

namespace Percent

open Text

theorem isUnreserved_iff {b : UInt8} : isUnreserved b = true ↔
    (0x61 ≤ b.toNat ∧ b.toNat ≤ 0x7A) ∨ (0x41 ≤ b.toNat ∧ b.toNat ≤ 0x5A) ∨
      (0x30 ≤ b.toNat ∧ b.toNat ≤ 0x39) ∨
      b.toNat = 0x2D ∨ b.toNat = 0x5F ∨ b.toNat = 0x2E ∨ b.toNat = 0x7E := by
  simp only [isUnreserved, Bool.or_eq_true, Bool.and_eq_true, decide_eq_true_eq,
    UInt8.le_iff_toNat_le, beq_iff_eq, ← UInt8.toNat_inj, UInt8.reduceToNat, or_assoc]

theorem hexDigit_cases : ∀ n < 16,
    (0x25 ≤ (hexDigit n).toNat ∧ (hexDigit n).toNat < 128) ∧ hexDigit? (hexDigit n) = some n := by
  decide

theorem toNat_ofNat {n : Nat} (hlt : n < 128) : (Char.ofNat n).toNat = n := by
  have hvalid : n.isValidChar := Or.inl (by omega)
  rw [Char.ofNat, dif_pos hvalid]
  rfl

/-- What is written for a byte is ASCII, and nothing before the percent sign. -/
theorem ascii_of_mem_encodeByte {b : UInt8} {c : Char} (hc : c ∈ encodeByte b) :
    0x25 ≤ c.toNat ∧ c.toNat < 128 := by
  have hb := b.toNat_lt
  unfold encodeByte at hc
  split at hc
  next hunreserved =>
    rw [isUnreserved_iff] at hunreserved
    rw [List.mem_singleton.mp hc, toNat_ofNat (by omega)]
    omega
  next =>
    simp only [List.mem_cons, List.not_mem_nil, or_false] at hc
    rcases hc with rfl | rfl | rfl
    · decide
    · exact (hexDigit_cases _ (by omega)).1
    · exact (hexDigit_cases _ (by omega)).1

theorem ascii_of_mem_encode {s : String} {c : Char} (hc : c ∈ (encode s).toList) :
    0x25 ≤ c.toNat ∧ c.toNat < 128 := by
  rw [encode, String.toList_ofList] at hc
  obtain ⟨b, _, hb⟩ := List.mem_flatMap.mp hc
  exact ascii_of_mem_encodeByte hb

theorem isUnreserved_hexDigit : ∀ n < 16, isUnreserved (UInt8.ofNat (hexDigit n).toNat) = true := by
  decide

/-- What is written for a byte is made of unreserved characters and percent signs. -/
theorem unreserved_of_mem_encodeByte {b : UInt8} {c : Char} (hc : c ∈ encodeByte b) :
    c = '%' ∨ isUnreserved (UInt8.ofNat c.toNat) = true := by
  have hb := b.toNat_lt
  unfold encodeByte at hc
  split at hc
  next hunreserved =>
    have hrange := isUnreserved_iff.mp hunreserved
    rw [List.mem_singleton.mp hc, toNat_ofNat (by omega), UInt8.ofNat_toNat]
    exact Or.inr hunreserved
  next =>
    simp only [List.mem_cons, List.not_mem_nil, or_false] at hc
    rcases hc with rfl | rfl | rfl
    · exact Or.inl rfl
    · exact Or.inr (isUnreserved_hexDigit _ (by omega))
    · exact Or.inr (isUnreserved_hexDigit _ (by omega))

theorem unreserved_of_mem_encode {s : String} {c : Char} (hc : c ∈ (encode s).toList) :
    c = '%' ∨ isUnreserved (UInt8.ofNat c.toNat) = true := by
  rw [encode, String.toList_ofList] at hc
  obtain ⟨b, _, hb⟩ := List.mem_flatMap.mp hc
  exact unreserved_of_mem_encodeByte hb

/-- The bytes of what is written for a byte: itself, or a percent sign and the digits
that name it. -/
theorem encodeChars_encodeByte (b : UInt8) : encodeChars (encodeByte b) = [b] ∧ b ≠ 0x25 ∨
    ∃ high low, encodeChars (encodeByte b) = [0x25, high, low] ∧ named? 0x25 high low = some b := by
  have hb := b.toNat_lt
  unfold encodeByte
  split
  next hunreserved =>
    rw [isUnreserved_iff] at hunreserved
    refine Or.inl ⟨?_, ?_⟩
    · have hascii := toNat_ofNat (show b.toNat < 128 by omega)
      rw [encodeChars, List.flatMap_singleton, utf8EncodeChar_of_ascii (by rw [hascii]; omega),
        hascii, UInt8.ofNat_toNat]
    · rintro rfl
      simp at hunreserved
  next =>
    obtain ⟨⟨_, hhigh⟩, hhighValue⟩ := hexDigit_cases (b.toNat / 16) (by omega)
    obtain ⟨⟨_, hlow⟩, hlowValue⟩ := hexDigit_cases (b.toNat % 16) (by omega)
    refine Or.inr ⟨UInt8.ofNat (hexDigit (b.toNat / 16)).toNat,
      UInt8.ofNat (hexDigit (b.toNat % 16)).toNat, ?_, ?_⟩
    · simp only [encodeChars, List.flatMap_cons, utf8EncodeChar_of_ascii hhigh,
        utf8EncodeChar_of_ascii hlow, List.flatMap_nil, List.append_nil, List.singleton_append]
      rfl
    · have hdigit {c : Char} (hascii : c.toNat < 128) :
          Char.ofNat (UInt8.ofNat c.toNat).toNat = c := by
        rw [Utf8.toNat_ofNat_of_lt (by omega), Char.ofNat_toNat]
      have hvalue : b.toNat / 16 * 16 + b.toNat % 16 = b.toNat := by omega
      simp only [named?, if_true, hexByte?, hdigit hhigh, hdigit hlow, hhighValue, hlowValue,
        hvalue, UInt8.ofNat_toNat]

/-- A byte that is no percent sign stands for itself. -/
theorem unescape_cons {b : UInt8} (hb : b ≠ 0x25) (rest : List UInt8) :
    unescape (b :: rest) = b :: unescape rest := by
  match rest with
  | [] => rfl
  | [_] => rfl
  | high :: low :: rest =>
      have hnamed : named? b high low = none := if_neg hb
      rw [unescape, hnamed]

theorem unescape_encodeByte (b : UInt8) (rest : List UInt8) :
    unescape (encodeChars (encodeByte b) ++ rest) = b :: unescape rest := by
  rcases encodeChars_encodeByte b with ⟨hitself, hne⟩ | ⟨high, low, hwritten, hnamed⟩
  · rw [hitself, List.singleton_append, unescape_cons hne]
  · rw [hwritten]
    simp only [List.cons_append, List.nil_append, unescape, hnamed]

theorem unescape_encodeBytes (bs : List UInt8) :
    unescape (encodeChars (bs.flatMap encodeByte)) = bs := by
  induction bs with
  | nil => rfl
  | cons b bs ih => rw [List.flatMap_cons, encodeChars_append, unescape_encodeByte, ih]

/-- Reading undoes writing, for every text. -/
theorem decode_encode (s : String) : decode (encode s) = .ok s := by
  have hbytes : unescape (bytes (encode s)) = bytes s := by
    rw [bytes, encode, String.toList_ofList, unescape_encodeBytes]
  rw [decode, hbytes, bytes, Utf8.decode_encodeChars]
  exact congrArg Except.ok String.ofList_toList

theorem encode_eq_empty_iff {s : String} : encode s = "" ↔ s = "" := by
  constructor
  · intro hempty
    have hread := decode_encode s
    rw [hempty] at hread
    exact (Except.ok.inj hread).symm
  · rintro rfl
    rfl

theorem eq_nil_of_unescape_eq_nil {bs : List UInt8} (hnil : unescape bs = []) : bs = [] := by
  unfold unescape at hnil
  split at hnil
  · split at hnil <;> cases hnil
  · exact hnil

theorem eq_empty_of_decode_eq_empty {s : String} (hread : decode s = .ok "") : s = "" := by
  unfold decode at hread
  split at hread
  next cs hcs =>
      have hnil : cs = [] := by rw [← String.toList_ofList (l := cs), Except.ok.inj hread]; rfl
      have hbytes : bytes s = [] :=
        eq_nil_of_unescape_eq_nil (Utf8.eq_nil_of_decode_eq_nil (hnil ▸ hcs))
      refine String.toList_eq_nil_iff.mp (List.eq_nil_iff_forall_not_mem.mpr fun c hc => ?_)
      exact String.utf8EncodeChar_ne_nil (List.flatMap_eq_nil_iff.mp hbytes c hc)
  next => cases hread

end Percent

namespace Coding

theorem eq_empty_of_decode_eq_empty {coding : Coding} {value : String}
    (hread : coding.decode value = .ok "") :
    value = "" := by
  unfold decode at hread
  split at hread
  · exact Percent.eq_empty_of_decode_eq_empty hread
  · exact Except.ok.inj hread

/-- Under every coding reading undoes writing. -/
theorem decode_encode (coding : Coding) (value : String) :
    coding.decode (coding.encode value) = .ok value := by
  unfold decode encode
  split
  · exact Percent.decode_encode value
  · rfl

theorem encode_eq_empty_iff {coding : Coding} {value : String} :
    coding.encode value = "" ↔ value = "" := by
  unfold encode
  split
  · exact Percent.encode_eq_empty_iff
  · rfl

end Coding

end VersionedBucket
