import VersionedBucket.Text.Search
import Mathlib.Data.String.Basic

/-! # The order of texts by their bytes

UTF-8 keeps the order of characters, so the order of texts by their bytes is their order by
characters. It is linear, a prefix never comes after what it begins, and the texts that begin alike
lie side by side.
-/

namespace VersionedBucket.Text

/-- Of two numbers of twenty-one bits the smaller one is smaller at the first group of bits in which
they differ. The groups are those that the four-byte form of a character writes. -/
theorem lt_bitGroups {x y : Nat} (hlt : x < y) (hy : y < 2097152) :
    x / 262144 % 8 < y / 262144 % 8 ∨ x / 262144 % 8 = y / 262144 % 8 ∧
      (x / 4096 % 64 < y / 4096 % 64 ∨ x / 4096 % 64 = y / 4096 % 64 ∧
        (x / 64 % 64 < y / 64 % 64 ∨ x / 64 % 64 = y / 64 % 64 ∧ x % 64 < y % 64)) := by
  rcases Nat.lt_trichotomy (x / 262144) (y / 262144) with h₃ | h₃ | h₃
  · omega
  · rcases Nat.lt_trichotomy (x / 4096) (y / 4096) with h₂ | h₂ | h₂
    · omega
    · rcases Nat.lt_trichotomy (x / 64) (y / 64) with h₁ | h₁ | h₁ <;> omega
    · omega
  · omega

/-- The written forms of two characters differ at some byte, and there the smaller character has the
smaller byte. What follows is never looked at. -/
theorem utf8EncodeChar_append_lt {c d : Char} (hlt : c < d) (left right : List UInt8) :
    String.utf8EncodeChar c ++ left < String.utf8EncodeChar d ++ right := by
  have hval : c.val.toNat < d.val.toNat := hlt
  have hmax : d.val.toNat < 1114112 := by
    have hvalid := d.valid
    unfold UInt32.isValidChar Nat.isValidChar at hvalid
    omega
  have hgroups := lt_bitGroups hval (by omega)
  simp only [String.utf8EncodeChar]
  generalize c.val.toNat = x at *
  generalize d.val.toNat = y at *
  -- one case for each pair of lengths that the two written forms can have
  split_ifs <;>
    simp (disch := omega) only [List.cons_append, List.nil_append, List.cons_lt_cons_iff,
      UInt8.lt_iff_toNat_lt, ← UInt8.toNat_inj, UInt8.toNat_ofNat', Nat.reducePow,
      Nat.mod_eq_of_lt] <;>
    omega

theorem encodeChars_lt {left right : List Char} (hlt : left < right) :
    encodeChars left < encodeChars right := by
  induction left generalizing right with
  | nil =>
      cases right with
      | nil => exact absurd hlt (List.not_lt_nil _)
      | cons d ds =>
          cases hform : String.utf8EncodeChar d with
          | nil => exact absurd hform (by simp)
          | cons b bs => simp [encodeChars, hform]
  | cons c cs ih =>
      cases right with
      | nil => exact absurd hlt (List.not_lt_nil _)
      | cons d ds =>
          simp only [encodeChars, List.flatMap_cons]
          rcases List.cons_lt_cons_iff.mp hlt with hhead | ⟨rfl, htail⟩
          · exact utf8EncodeChar_append_lt hhead _ _
          · exact List.append_left_lt (ih htail)

/-- The order by bytes is the usual order of texts. -/
theorem before_iff_lt {a b : String} : Before a b ↔ a < b := by
  unfold Before bytes
  rw [String.lt_iff_toList_lt]
  refine ⟨fun hbytes => ?_, encodeChars_lt⟩
  rcases lt_trichotomy a.toList b.toList with hlt | heq | hgt
  · exact hlt
  · exact absurd hbytes (heq ▸ List.lt_irrefl _)
  · exact absurd hbytes (List.lt_asymm (encodeChars_lt hgt))

theorem not_before_iff_le {a b : String} : ¬ Before a b ↔ b ≤ a := by
  rw [before_iff_lt, not_lt]

/-! ## Prefixes -/

theorem startsWith_iff {s start : String} :
    startsWith s start = true ↔ start.toList <+: s.toList := by
  simp [startsWith]

/-- A list between two lists that begin alike begins like them. -/
theorem isPrefix_of_between {α : Type} [LinearOrder α] {start a b c : List α}
    (ha : start <+: a) (hc : start <+: c) (hab : ¬ b < a) (hbc : ¬ c < b) : start <+: b := by
  induction start generalizing a b c with
  | nil => exact List.nil_prefix
  | cons x start ih =>
      obtain ⟨a, rfl⟩ := ha
      obtain ⟨c, rfl⟩ := hc
      cases b with
      | nil => exact absurd (List.nil_lt_cons _ _) hab
      | cons y b =>
          simp only [List.cons_append, List.cons_lt_cons_iff, not_or, not_and] at hab hbc
          have heq : x = y := le_antisymm (not_lt.mp hab.1) (not_lt.mp hbc.1)
          have htail := ih (List.prefix_append start a) (List.prefix_append start c)
            (hab.2 heq.symm) (hbc.2 heq)
          exact List.cons_prefix_cons.mpr ⟨heq, htail⟩

theorem le_of_startsWith {s start : String} (hstart : startsWith s start = true) : start ≤ s := by
  rw [startsWith_iff] at hstart
  rw [← not_lt, String.lt_iff_toList_lt]
  exact List.IsPrefix.le hstart

/-- A text between two texts that begin alike begins like them. -/
theorem startsWith_of_between {start a b c : String} (ha : startsWith a start = true)
    (hc : startsWith c start = true) (hab : a ≤ b) (hbc : b ≤ c) : startsWith b start = true := by
  rw [startsWith_iff] at *
  rw [← not_lt, String.lt_iff_toList_lt] at hab hbc
  exact isPrefix_of_between ha hc hab hbc

end VersionedBucket.Text
