import VersionedBucket.Proofs.Except
import VersionedBucket.Proofs.Percent
import VersionedBucket.Proofs.Text.ByteOrder
import Mathlib.Data.List.Infix

/-! # The written form of listing values

What percent coding makes of a text: characters that stand for themselves, and groups of a percent
sign and two capital hexadecimal digits. It keeps beginnings in both directions, so that keys can
be told by their prefix before they are decoded. This rests on two codes in neither of which a
word begins with another one: characters are written as bytes, and bytes as characters of the
written form.
-/

namespace VersionedBucket

namespace Text

/-! ## Codes -/

section Codes

variable {α β : Type} {code : α → List β}

/-- No word of the code begins with the word for something else. -/
def PrefixFree (code : α → List β) : Prop := ∀ a b, code a <+: code b → a = b

/-- In such a code one message begins with another exactly if what it says does. -/
theorem PrefixFree.flatMap_isPrefix_iff (hfree : PrefixFree code) (hne : ∀ a, code a ≠ [])
    {start whole : List α} :
    start.flatMap code <+: whole.flatMap code ↔ start <+: whole := by
  constructor
  · intro hprefix
    induction start generalizing whole with
    | nil => exact List.nil_prefix
    | cons a start ih =>
        cases whole with
        | nil =>
            have hword : code a = [] := (List.append_eq_nil_iff.mp (List.prefix_nil.mp hprefix)).1
            exact absurd hword (hne a)
        | cons b whole =>
            rw [List.flatMap_cons, List.flatMap_cons] at hprefix
            -- both first words begin the longer message, so one of them begins the other
            have hfirst : code a <+: code b ++ whole.flatMap code :=
              (List.prefix_append _ _).trans hprefix
            have heq : a = b := by
              rcases List.prefix_or_prefix_of_prefix hfirst (List.prefix_append _ _) with hab | hba
              · exact hfree a b hab
              · exact (hfree b a hba).symm
            subst heq
            rw [List.cons_prefix_cons]
            exact ⟨rfl, ih ((List.prefix_append_right_inj _).mp hprefix)⟩
  · intro hprefix
    exact List.IsPrefix.flatMap hprefix code

end Codes

/-- No character begins in UTF-8 with another one: reading takes the first that is complete. -/
theorem prefixFree_utf8EncodeChar : PrefixFree String.utf8EncodeChar := by
  intro c d hprefix
  obtain ⟨rest, hrest⟩ := hprefix
  have hread := Utf8.decodeFrom_encodeChar 0 [] d
  rw [List.append_nil, ← hrest, Utf8.decodeFrom_encodeChar 0 rest c] at hread
  obtain ⟨cs, -, hcs⟩ := map_eq_ok_iff.mp hread
  exact (List.cons.inj hcs).1

theorem encodeChars_isPrefix_iff {start cs : List Char} :
    encodeChars start <+: encodeChars cs ↔ start <+: cs :=
  prefixFree_utf8EncodeChar.flatMap_isPrefix_iff fun _ => String.utf8EncodeChar_ne_nil

end Text

namespace Percent

open Text

/-! ## Groups -/

/-- The characters that stand for themselves. -/
def IsPlain (c : Char) : Prop :=
  'A' ≤ c ∧ c ≤ 'Z' ∨ 'a' ≤ c ∧ c ≤ 'z' ∨ '0' ≤ c ∧ c ≤ '9' ∨ c = '-' ∨ c = '_' ∨ c = '.' ∨ c = '~'

/-- The hexadecimal digits of groups. -/
def IsCapitalHex (c : Char) : Prop := '0' ≤ c ∧ c ≤ '9' ∨ 'A' ≤ c ∧ c ≤ 'F'

instance (c : Char) : Decidable (IsCapitalHex c) := by unfold IsCapitalHex; infer_instance

/-- Characters that stand for themselves, and groups of a percent sign and two digits. -/
inductive IsCoded : List Char → Prop where
  | nil : IsCoded []
  | plain {c : Char} {rest : List Char} (hc : IsPlain c) (hrest : IsCoded rest) :
      IsCoded (c :: rest)
  | group {high low : Char} {rest : List Char} (hhigh : IsCapitalHex high) (hlow : IsCapitalHex low)
      (hrest : IsCoded rest) : IsCoded ('%' :: high :: low :: rest)

theorem isPlain_of_isUnreserved {b : UInt8} (hunreserved : isUnreserved b = true) :
    IsPlain (Char.ofNat b.toNat) := by
  rw [isUnreserved_iff] at hunreserved
  have hvalue : (Char.ofNat b.toNat).toNat = b.toNat := toNat_ofNat (by omega)
  rw [← hvalue] at hunreserved
  generalize Char.ofNat b.toNat = c at hunreserved
  rcases hunreserved with hsmall | hcapital | hdigit | hmark
  · exact Or.inr (Or.inl hsmall)
  · exact Or.inl hcapital
  · exact Or.inr (Or.inr (Or.inl hdigit))
  · refine Or.inr (Or.inr (Or.inr ?_))
    simp only [← Char.toNat_inj]
    exact hmark

theorem isCapitalHex_hexDigit : ∀ n < 16, IsCapitalHex (hexDigit n) := by decide

theorem isCoded_encodeByte (b : UInt8) {rest : List Char} (hrest : IsCoded rest) :
    IsCoded (encodeByte b ++ rest) := by
  have hb := b.toNat_lt
  unfold encodeByte
  split
  next hunreserved => exact .plain (isPlain_of_isUnreserved hunreserved) hrest
  next =>
    exact .group (isCapitalHex_hexDigit _ (by omega)) (isCapitalHex_hexDigit _ (by omega)) hrest

theorem isCoded_encode (s : String) : IsCoded (encode s).toList := by
  rw [encode, String.toList_ofList]
  induction bytes s with
  | nil => exact .nil
  | cons b bs ih => exact isCoded_encodeByte b ih

/-! ## Prefixes -/

theorem encodeByte_ne_nil (b : UInt8) : encodeByte b ≠ [] := by
  unfold encodeByte
  split
  · exact List.cons_ne_nil _ _
  · exact List.cons_ne_nil _ _

/-- No byte begins in its written form with another one: reading takes the first
that is complete. -/
theorem prefixFree_encodeByte : PrefixFree encodeByte := by
  intro a b hprefix
  obtain ⟨rest, hrest⟩ := hprefix
  have hread := unescape_encodeByte b []
  rw [List.append_nil, ← hrest, encodeChars_append, unescape_encodeByte] at hread
  exact (List.cons.inj hread).1

/-- One text begins with another exactly if its written form does. -/
theorem startsWith_encode_iff {s start : String} :
    startsWith (encode s) (encode start) = true ↔ startsWith s start = true := by
  calc startsWith (encode s) (encode start) = true
    _ ↔ (bytes start).flatMap encodeByte <+: (bytes s).flatMap encodeByte := by
        rw [startsWith_iff, encode, encode, String.toList_ofList, String.toList_ofList]
    _ ↔ bytes start <+: bytes s := prefixFree_encodeByte.flatMap_isPrefix_iff encodeByte_ne_nil
    _ ↔ start.toList <+: s.toList := encodeChars_isPrefix_iff
    _ ↔ startsWith s start = true := startsWith_iff.symm

theorem encode_injective : Function.Injective encode := by
  intro s t heq
  have hread := decode_encode s
  rw [heq, decode_encode] at hread
  exact (Except.ok.inj hread).symm

end Percent

namespace Coding

/-- Under every coding what is written for a value is read as the value. What percent coding writes
is made of plain characters and groups, it is empty for the empty value alone and different for
different values, and it begins with what is written for another value exactly if the value begins
with that one. -/
theorem encode_faithful :
    (∀ (coding : Coding) (value : String), coding.decode (coding.encode value) = .ok value) ∧
      (∀ value, Percent.IsCoded (encode (some url) value).toList) ∧
      (∀ value, encode (some url) value = "" ↔ value = "") ∧
      Function.Injective (encode (some url)) ∧
      ∀ value start, Text.startsWith (encode (some url) value) (encode (some url) start) = true ↔
        Text.startsWith value start = true :=
  ⟨decode_encode, Percent.isCoded_encode, fun _ => encode_eq_empty_iff, Percent.encode_injective,
    fun _ _ => Percent.startsWith_encode_iff⟩

end Coding

end VersionedBucket
