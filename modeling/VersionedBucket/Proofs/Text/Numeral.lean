import VersionedBucket.Proofs.Except
import VersionedBucket.Text.Blank
import VersionedBucket.Text.Numeral
import Mathlib.Data.List.Induction

/-! # Reading numerals back

The decimal digits of a number are read as the number, as long as the limits of the reader are kept.
Nothing in a numeral is blank.
-/

namespace VersionedBucket.Text

/-- All characters are decimal digits. -/
def AllDigits (cs : List Char) : Prop := ∀ c ∈ cs, c.isDigit = true

theorem digit?_of_isDigit {c : Char} (hdigit : c.isDigit = true) :
    digit? c = some (c.toNat - '0'.toNat) := by
  simp only [Char.isDigit, Bool.and_eq_true, decide_eq_true_eq] at hdigit
  exact if_pos ⟨hdigit.1, hdigit.2⟩

theorem digit?_eq_none {c : Char} (hdigit : c.isDigit = false) : digit? c = none := by
  refine if_neg fun hrange => ?_
  have : c.isDigit = true := by
    simp only [Char.isDigit, Bool.and_eq_true, decide_eq_true_eq]
    exact ⟨hrange.1, hrange.2⟩
  exact absurd (hdigit.symm.trans this) Bool.false_ne_true

theorem digit?_eq_some_iff {c : Char} {d : Nat} :
    digit? c = some d ↔ c.isDigit = true ∧ c.toNat - '0'.toNat = d := by
  cases hdigit : c.isDigit with
  | false => simp [digit?_eq_none hdigit]
  | true => simp [digit?_of_isDigit hdigit]

theorem toNat_of_isDigit {c : Char} (hdigit : c.isDigit = true) : 48 ≤ c.toNat ∧ c.toNat ≤ 57 := by
  simp only [Char.isDigit, Bool.and_eq_true, decide_eq_true_eq, ge_iff_le,
    UInt32.le_iff_toNat_le] at hdigit
  exact hdigit

theorem isBlank_of_isDigit {c : Char} (hdigit : c.isDigit = true) : isBlank c = false := by
  obtain ⟨hlow, hhigh⟩ := toNat_of_isDigit hdigit
  simp only [isBlank, Bool.or_eq_false_iff, Bool.and_eq_false_iff, decide_eq_false_iff_not,
    beq_eq_false_iff_ne]
  omega

theorem allDigits_decimal (n : Nat) : AllDigits (decimal n) :=
  fun _ hc => Nat.isDigit_of_mem_toDigits (by decide) (by decide) hc

theorem decimal_ne_nil (n : Nat) : decimal n ≠ [] := Nat.toDigits_ne_nil

theorem decimal_injective : Function.Injective decimal := by
  intro n m heq
  have hvalue (k : Nat) : Nat.ofDigitChars 10 (decimal k) 0 = k := Nat.ofDigitChars_ten_toDigits
  rw [← hvalue n, heq, hvalue m]

/-- A number has no zero in front of other digits. -/
theorem head?_decimal {n : Nat} (hn : 0 < n) : (decimal n).head? ≠ some '0' := by
  induction n using Nat.strongRecOn with
  | ind n ih =>
      rcases Nat.lt_or_ge n 10 with hlt | hge
      · have hdigit : ∀ n < 10, 0 < n → (decimal n).head? ≠ some '0' := by decide
        exact hdigit n hlt hn
      · have hfront : 0 < n / 10 := by omega
        have hsplit : decimal n = decimal (n / 10) ++ [(n % 10).digitChar] :=
          Nat.toDigits_of_base_le (by decide) hge
        rw [hsplit, List.head?_append_of_ne_nil _ (decimal_ne_nil (n / 10))]
        exact ih (n / 10) (by omega) hfront

/-- A zero is all there is of a number that begins with it. -/
theorem eq_nil_of_decimal_eq {n : Nat} {cs : List Char} (hform : decimal n = '0' :: cs) :
    cs = [] := by
  rcases Nat.eq_zero_or_pos n with rfl | hn
  · cases hform
    rfl
  · exact absurd (congrArg List.head? hform) (head?_decimal hn)

theorem digit_lt_ten {c : Char} (hdigit : c.isDigit = true) : c.toNat - '0'.toNat < 10 :=
  Nat.sub_lt_left_of_lt_add (toNat_of_isDigit hdigit).1
    (Nat.lt_succ_of_le (toNat_of_isDigit hdigit).2)

theorem decimal_of_isDigit {c : Char} (hdigit : c.isDigit = true) :
    decimal (c.toNat - '0'.toNat) = [c] := by
  have hchar : (c.toNat - '0'.toNat).digitChar = c := by
    rw [← Char.toNat_inj, Nat.toNat_digitChar_of_lt_ten (digit_lt_ten hdigit)]
    exact Nat.add_sub_cancel' (toNat_of_isDigit hdigit).1
  rw [decimal, Nat.toDigits_of_lt_base (digit_lt_ten hdigit), hchar]

/-- So many digits stand for less than this power of ten. -/
theorem ofDigitChars_lt {ds : List Char} (hdigits : AllDigits ds) :
    Nat.ofDigitChars 10 ds 0 < Nat.pow 10 ds.length := by
  induction ds using List.reverseRecOn with
  | nil => decide
  | append_singleton front c ih =>
      have hc := digit_lt_ten (hdigits c (by simp))
      have hfront := ih fun d hd => hdigits d (List.mem_append_left _ hd)
      have hpow : Nat.pow 10 (front.length + 1) = Nat.pow 10 front.length * 10 := rfl
      rw [Nat.ofDigitChars_append, Nat.ofDigitChars_cons, Nat.ofDigitChars_nil, List.length_append,
        List.length_singleton, hpow]
      omega

/-- Digits without a zero in front of others are the decimal text of what they stand for. -/
theorem decimal_ofDigitChars {ds : List Char} (hne : ds ≠ []) (hdigits : AllDigits ds)
    (hzero : ∀ rest, ds = '0' :: rest → rest = []) : decimal (Nat.ofDigitChars 10 ds 0) = ds := by
  induction ds using List.reverseRecOn with
  | nil => exact absurd rfl hne
  | append_singleton front c ih =>
      have hc : c.isDigit = true := hdigits c (by simp)
      rw [Nat.ofDigitChars_append, Nat.ofDigitChars_cons, Nat.ofDigitChars_nil]
      rcases eq_or_ne front [] with rfl | hfront
      · rw [Nat.ofDigitChars_nil, Nat.mul_zero, Nat.zero_add]
        exact decimal_of_isDigit hc
      -- the digits in front do not begin with a zero, so they stand for a positive number
      have hhead (rest : List Char) : front ≠ '0' :: rest := by
        rintro rfl
        simpa using hzero (rest ++ [c]) rfl
      have hvalue : decimal (Nat.ofDigitChars 10 front 0) = front :=
        ih hfront (fun d hd => hdigits d (List.mem_append_left _ hd))
          fun rest hrest => absurd hrest (hhead rest)
      have hpos : 0 < Nat.ofDigitChars 10 front 0 := by
        rw [Nat.pos_iff_ne_zero]
        intro hnone
        rw [hnone] at hvalue
        exact hhead [] hvalue.symm
      exact (Nat.toDigits_append_toDigits (by decide) hpos (digit_lt_ten hc)).symm.trans
        (congrArg₂ (· ++ ·) hvalue (decimal_of_isDigit hc))

/-- The characters are digits that stand for the number, at least one of them. -/
def AreDigits (n : Nat) (ds : List Char) : Prop :=
  ds ≠ [] ∧ AllDigits ds ∧ Nat.ofDigitChars 10 ds 0 = n

/-- The characters stand for the number: digits alone, or with one plus sign before them. -/
inductive IsNumeral (n : Nat) : List Char → Prop where
  | digits {ds : List Char} (hdigits : AreDigits n ds) : IsNumeral n ds
  | signed {ds : List Char} (hdigits : AreDigits n ds) : IsNumeral n ('+' :: ds)

theorem le_ofDigitChars (cs : List Char) (value : Nat) : value ≤ Nat.ofDigitChars 10 cs value := by
  rw [Nat.ofDigitChars_eq_ofDigitChars_zero]
  have hpow : 1 ≤ 10 ^ cs.length := Nat.one_le_pow _ _ (by decide)
  have hmul := Nat.mul_le_mul_right value hpow
  omega

namespace Numeral

theorem readDigits_of_allDigits {limit value : Nat} {cs : List Char} (hdigits : AllDigits cs)
    (hlimit : Nat.ofDigitChars 10 cs value ≤ limit) :
    readDigits limit value cs = .ok (Nat.ofDigitChars 10 cs value) := by
  induction cs generalizing value with
  | nil => rfl
  | cons c cs ih =>
      rw [Nat.ofDigitChars_cons, Nat.mul_comm] at hlimit ⊢
      have hfits := Nat.le_trans (le_ofDigitChars cs _) hlimit
      rw [readDigits, digit?_of_isDigit (hdigits c List.mem_cons_self)]
      simp only [hfits, if_true]
      exact ih (fun d hd => hdigits d (List.mem_cons_of_mem _ hd)) hlimit

theorem readDigits_eq_ok_iff {limit value n : Nat} {cs : List Char} (hvalue : value ≤ limit) :
    readDigits limit value cs = .ok n ↔
      AllDigits cs ∧ Nat.ofDigitChars 10 cs value = n ∧ n ≤ limit := by
  constructor
  · intro hread
    induction cs generalizing value with
    | nil =>
        cases hread
        exact ⟨nofun, rfl, hvalue⟩
    | cons c cs ih =>
        rw [readDigits] at hread
        cases hdigit : c.isDigit with
        | false =>
            rw [digit?_eq_none hdigit] at hread
            cases hread
        | true =>
            rw [digit?_of_isDigit hdigit] at hread
            dsimp only at hread
            split at hread
            next hfits =>
                obtain ⟨hdigits, hn, hlimit⟩ := ih hfits hread
                refine ⟨List.forall_mem_cons.mpr ⟨hdigit, hdigits⟩, ?_, hlimit⟩
                rwa [Nat.ofDigitChars_cons, Nat.mul_comm]
            next => cases hread
  · rintro ⟨hdigits, rfl, hlimit⟩
    exact readDigits_of_allDigits hdigits hlimit

theorem read_decimal {limit n : Nat} (hlimit : n ≤ limit) : read limit (decimal n) = .ok n := by
  have hvalue : Nat.ofDigitChars 10 (decimal n) 0 = n := Nat.ofDigitChars_ten_toDigits
  have hdigits : readDigits limit 0 (decimal n) = .ok (Nat.ofDigitChars 10 (decimal n) 0) :=
    readDigits_of_allDigits (allDigits_decimal n) (hvalue.symm ▸ hlimit)
  rw [hvalue] at hdigits
  cases hform : decimal n with
  | nil => exact absurd hform (decimal_ne_nil n)
  | cons c cs =>
      have hplus : c ≠ '+' := by
        rintro rfl
        have := allDigits_decimal n '+' (hform ▸ List.mem_cons_self)
        exact absurd this (by decide)
      rw [hform] at hdigits
      unfold read
      split
      next heq => cases heq
      next heq => exact absurd (List.cons.inj heq).1 hplus
      next heq => exact absurd (List.cons.inj heq).1 hplus
      · exact hdigits

/-- What is read as a number up to the limit: digits, with one plus sign before them or none. -/
theorem read_eq_ok_iff {limit n : Nat} {cs : List Char} :
    read limit cs = .ok n ↔ IsNumeral n cs ∧ n ≤ limit := by
  have hdigits {ds : List Char} (hne : ds ≠ []) : readDigits limit 0 ds = .ok n ↔
      AreDigits n ds ∧ n ≤ limit := by
    rw [AreDigits, readDigits_eq_ok_iff (Nat.zero_le limit), and_assoc, and_assoc,
      and_iff_right hne]
  unfold read
  split
  next => exact ⟨nofun, fun ⟨hnumeral, _⟩ => by cases hnumeral with | digits hform =>
    exact absurd rfl hform.1⟩
  next =>
      refine ⟨nofun, fun ⟨hnumeral, _⟩ => ?_⟩
      cases hnumeral with
      | digits hform => exact absurd (hform.2.1 '+' List.mem_cons_self) (by decide)
      | signed hform => exact absurd rfl hform.1
  next rest hrest =>
      rw [hdigits hrest]
      refine and_congr_left fun _ => ⟨.signed, fun hnumeral => ?_⟩
      cases hnumeral with
      | digits hform => exact absurd (hform.2.1 '+' List.mem_cons_self) (by decide)
      | signed hform => exact hform
  next hne _ hplus =>
      rw [hdigits hne]
      refine and_congr_left fun _ => ⟨.digits, fun hnumeral => ?_⟩
      cases hnumeral with
      | digits hform => exact hform
      | signed hform => exact absurd rfl (hplus _)

end Numeral

/-- A text that begins and ends with other characters than blanks stays as it is. -/
theorem trimmed_eq_self {cs : List Char} (hblank : ∀ c ∈ cs, isBlank c = false) :
    trimmed cs = cs := by
  have hdrop {cs : List Char} (hblank : ∀ c ∈ cs, isBlank c = false) :
      cs.dropWhile isBlank = cs := by
    cases cs with
    | nil => rfl
    | cons c cs => exact List.dropWhile_cons_of_neg (by simp [hblank c List.mem_cons_self])
  rw [trimmed, hdrop hblank, hdrop (fun c hc => hblank c (List.mem_reverse.mp hc)),
    List.reverse_reverse]

theorem trim_ofList_decimal (n : Nat) :
    trim (String.ofList (decimal n)) = String.ofList (decimal n) := by
  rw [trim, String.toList_ofList,
    trimmed_eq_self fun c hc => isBlank_of_isDigit (allDigits_decimal n c hc)]

theorem readUInt16_decimal (n : UInt16) :
    Numeral.readUInt16 (String.ofList (decimal n.toNat)) = .ok n := by
  have hlt := n.toNat_lt
  rw [Numeral.readUInt16, String.toList_ofList, Numeral.read_decimal (by omega)]
  exact congrArg Except.ok UInt16.ofNat_toNat

theorem readUInt64_decimal (n : UInt64) :
    Numeral.readUInt64 (String.ofList (decimal n.toNat)) = .ok n := by
  have hlt := n.toNat_lt
  rw [Numeral.readUInt64, String.toList_ofList, Numeral.read_decimal (by omega)]
  exact congrArg Except.ok UInt64.ofNat_toNat

theorem readUInt16_eq_ok_iff {s : String} {n : UInt16} :
    Numeral.readUInt16 s = .ok n ↔ IsNumeral n.toNat s.toList := by
  have hlt := n.toNat_lt
  constructor
  · intro hread
    obtain ⟨value, hvalue, rfl⟩ := map_eq_ok_iff.mp hread
    obtain ⟨hnumeral, hlimit⟩ := Numeral.read_eq_ok_iff.mp hvalue
    rwa [UInt16.toNat_ofNat_of_lt' (Nat.lt_succ_of_le hlimit)]
  · intro hnumeral
    rw [Numeral.readUInt16, Numeral.read_eq_ok_iff.mpr ⟨hnumeral, Nat.le_of_lt_succ hlt⟩]
    exact congrArg Except.ok UInt16.ofNat_toNat

theorem readUInt64_eq_ok_iff {s : String} {n : UInt64} :
    Numeral.readUInt64 s = .ok n ↔ IsNumeral n.toNat s.toList := by
  have hlt := n.toNat_lt
  constructor
  · intro hread
    obtain ⟨value, hvalue, rfl⟩ := map_eq_ok_iff.mp hread
    obtain ⟨hnumeral, hlimit⟩ := Numeral.read_eq_ok_iff.mp hvalue
    rwa [UInt64.toNat_ofNat_of_lt' (Nat.lt_succ_of_le hlimit)]
  · intro hnumeral
    rw [Numeral.readUInt64, Numeral.read_eq_ok_iff.mpr ⟨hnumeral, Nat.le_of_lt_succ hlt⟩]
    exact congrArg Except.ok UInt64.ofNat_toNat

theorem truth?_eq_some_iff {s : String} {b : Bool} : truth? s = some b ↔ s = truthWord b := by
  unfold truth?
  split
  next htrue => rw [htrue]; cases b <;> decide
  next hother =>
      split
      next hfalse => rw [hfalse]; cases b <;> decide
      next hneither =>
          refine ⟨nofun, fun hword => ?_⟩
          cases b with
          | true => exact absurd hword hother
          | false => exact absurd hword hneither

/-- The words for truth values are read in the form in which they are written. -/
theorem truth?_truthWord (b : Bool) : truth? (lower (trim (truthWord b))) = some b := by
  cases b <;> decide

end VersionedBucket.Text
