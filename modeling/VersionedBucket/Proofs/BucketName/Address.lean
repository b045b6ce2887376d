import VersionedBucket.BucketName
import VersionedBucket.Proofs.Text.Numeral

/-! # Names that look like addresses

A name is taken for an address exactly if it is what four numbers up to 255 look like in decimal
with dots between them. Numbers with leading zeros are none of these.
-/

namespace VersionedBucket

namespace Text

/-- Pieces are what the text is split into at the separator. -/
theorem pieces_eq_splitOn (separator : Char) (cs : List Char) :
    pieces separator cs = cs.splitOn separator := by
  induction cs with
  | nil => rfl
  | cons c cs ih =>
      rw [pieces, List.splitOn_cons_eq_if_modifyHead, ih]
      simp only [beq_iff_eq]
      split
      · rfl
      · cases hsplit : cs.splitOn separator with
        | nil => exact absurd hsplit (List.splitOn_ne_nil _ _)
        | cons piece others => rfl

end Text

namespace BucketName

open Text

/-- Four numbers up to 255 in decimal, with dots between them. -/
def IsAddress (name : List Char) : Prop :=
  ∃ numbers : List Nat, numbers.length = 4 ∧ (∀ n ∈ numbers, n ≤ 255) ∧
    name = ['.'].intercalate (numbers.map decimal)

theorem isOctet_iff {ds : List Char} : isOctet ds = true ↔ ∃ n ≤ 255, decimal n = ds := by
  constructor
  · intro hoctet
    unfold isOctet at hoctet
    split at hoctet
    · exact ⟨0, by decide, rfl⟩
    · cases hoctet
    next hzero hzeros =>
      split at hoctet
      next n hread =>
        obtain ⟨hdigits, rfl, hlimit⟩ := (Numeral.readDigits_eq_ok_iff (Nat.zero_le 255)).mp hread
        have hne : ds ≠ [] := by simpa using hoctet
        exact ⟨_, hlimit, decimal_ofDigitChars hne hdigits fun rest hrest =>
          absurd hrest (hzeros rest)⟩
      next => cases hoctet
  · rintro ⟨n, hlimit, rfl⟩
    unfold isOctet
    split
    · rfl
    next rest hother hform =>
      exact absurd (eq_nil_of_decimal_eq hform) (by rintro rfl; exact hother rfl)
    · have hread : Numeral.readDigits 255 0 (decimal n) = .ok n :=
        (Numeral.readDigits_eq_ok_iff (Nat.zero_le 255)).mpr
          ⟨allDigits_decimal n, Nat.ofDigitChars_ten_toDigits, hlimit⟩
      simp [hread, decimal_ne_nil]

theorem dot_not_mem_decimal (n : Nat) : '.' ∉ decimal n := fun hmem =>
  absurd (allDigits_decimal n '.' hmem) (by decide)

theorem isAddress_iff {name : List Char} : isAddress name = true ↔ IsAddress name := by
  rw [isAddress, pieces_eq_splitOn]
  simp only [Bool.and_eq_true, beq_iff_eq, List.all_eq_true, isOctet_iff]
  constructor
  · rintro ⟨hlength, hoctets⟩
    have hvalue {part : List Char} (hpart : part ∈ name.splitOn '.') :
        decimal (Nat.ofDigitChars 10 part 0) = part ∧ Nat.ofDigitChars 10 part 0 ≤ 255 := by
      obtain ⟨n, hlimit, rfl⟩ := hoctets part hpart
      rw [show Nat.ofDigitChars 10 (decimal n) 0 = n from Nat.ofDigitChars_ten_toDigits]
      exact ⟨rfl, hlimit⟩
    have hback : ((name.splitOn '.').map fun part => Nat.ofDigitChars 10 part 0).map decimal =
        name.splitOn '.' := by
      rw [List.map_map]
      exact (List.map_congr_left fun part hpart => (hvalue hpart).1).trans (List.map_id _)
    refine ⟨_, (List.length_map _).trans hlength, List.forall_mem_map.mpr fun part hpart =>
      (hvalue hpart).2, ?_⟩
    rw [hback, List.intercalate_splitOn]
  · rintro ⟨numbers, hlength, hlimit, rfl⟩
    have hsplit : (['.'].intercalate (numbers.map decimal)).splitOn '.' = numbers.map decimal := by
      refine List.splitOn_intercalate '.' (List.forall_mem_map.mpr fun n _ => dot_not_mem_decimal n)
        fun hnil => ?_
      rw [List.map_eq_nil_iff.mp hnil] at hlength
      cases hlength
    rw [hsplit, List.length_map]
    exact ⟨hlength, List.forall_mem_map.mpr fun n hn => ⟨n, hlimit n hn, rfl⟩⟩

end BucketName

end VersionedBucket
