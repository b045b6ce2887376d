import VersionedBucket.Proofs.Text.Numeral
import Mathlib.Data.List.TakeWhile

/-! # Padded texts

What may stand around a value without changing what is read: blanks at both ends of a text, and
zeros before the digits of a number. Numerals are the decimal texts of numbers with zeros before
them, one plus sign before all, and nothing else; and a text without its blanks is a value without
blanks exactly if it is that value with blanks around it.
-/

namespace VersionedBucket.Text

/-! ## Blanks -/

/-- The text with blanks before and behind it. -/
inductive Padded (core : List Char) : List Char → Prop where
  | intro {before after : List Char} (hbefore : ∀ c ∈ before, isBlank c = true)
      (hafter : ∀ c ∈ after, isBlank c = true) : Padded core (before ++ core ++ after)

theorem trimmed_append_left {blanks : List Char} (hblanks : ∀ c ∈ blanks, isBlank c = true)
    (cs : List Char) :
    trimmed (blanks ++ cs) = trimmed cs := by
  rw [trimmed, List.dropWhile_append_of_pos hblanks, trimmed]

theorem trimmed_append_right {blanks : List Char} (hblanks : ∀ c ∈ blanks, isBlank c = true)
    (cs : List Char) :
    trimmed (cs ++ blanks) = trimmed cs := by
  rw [trimmed, trimmed, List.dropWhile_append]
  split
  next hempty =>
    -- blanks alone: all of them are taken off at the front
    rw [List.isEmpty_iff.mp hempty, List.dropWhile_eq_nil_iff.mpr hblanks]
  next =>
    have hreversed : ∀ c ∈ blanks.reverse, isBlank c = true := fun c hc =>
      hblanks c (List.mem_reverse.mp hc)
    rw [List.reverse_append, List.dropWhile_append_of_pos hreversed]

/-- Only blanks are taken off. -/
theorem padded_trimmed (cs : List Char) : Padded (trimmed cs) cs := by
  have hfront := List.takeWhile_append_dropWhile (p := isBlank) (l := cs)
  have hback := List.takeWhile_append_dropWhile (p := isBlank) (l := (cs.dropWhile isBlank).reverse)
  have hform : cs.takeWhile isBlank ++ trimmed cs ++
      ((cs.dropWhile isBlank).reverse.takeWhile isBlank).reverse = cs := by
    rw [List.append_assoc, trimmed, ← List.reverse_append, hback, List.reverse_reverse, hfront]
  have hpadded : Padded (trimmed cs)
      (cs.takeWhile isBlank ++ trimmed cs ++
        ((cs.dropWhile isBlank).reverse.takeWhile isBlank).reverse) := by
    apply Padded.intro
    · intro c hc
      exact List.mem_takeWhile_imp hc
    · intro c hc
      exact List.mem_takeWhile_imp (List.mem_reverse.mp hc)
  rwa [hform] at hpadded

theorem trimmed_eq_iff_padded {core cs : List Char} (hcore : ∀ c ∈ core, isBlank c = false) :
    trimmed cs = core ↔ Padded core cs := by
  constructor
  · intro htrimmed
    rw [← htrimmed]
    exact padded_trimmed cs
  · intro hpadded
    obtain ⟨hbefore, hafter⟩ := hpadded
    rw [trimmed_append_right hafter, trimmed_append_left hbefore, trimmed_eq_self hcore]

/-! ## Zeros -/

/-- The decimal text of a number, with zeros before it, and a plus sign before all or none. -/
inductive IsPrinted (n : Nat) : List Char → Prop where
  | unsigned (zeros : Nat) : IsPrinted n (List.replicate zeros '0' ++ decimal n)
  | signed (zeros : Nat) : IsPrinted n ('+' :: (List.replicate zeros '0' ++ decimal n))

/-- What digits stand for, printed behind zeros, is the digits again. -/
theorem exists_zeros {ds : List Char} (hne : ds ≠ []) (hdigits : AllDigits ds) :
    ∃ zeros, ds = List.replicate zeros '0' ++ decimal (Nat.ofDigitChars 10 ds 0) := by
  induction ds with
  | nil => exact absurd rfl hne
  | cons c ds ih =>
      -- the last zero of all is a number itself, so only a zero before other digits is taken off
      by_cases hzero : c = '0' ∧ ds ≠ []
      · obtain ⟨rfl, hds⟩ := hzero
        obtain ⟨zeros, hform⟩ := ih hds fun d hd => hdigits d (List.mem_cons_of_mem _ hd)
        have hvalue : Nat.ofDigitChars 10 ('0' :: ds) 0 = Nat.ofDigitChars 10 ds 0 := rfl
        refine ⟨zeros + 1, ?_⟩
        rw [hvalue, List.replicate_succ, List.cons_append, ← hform]
      · refine ⟨0, (decimal_ofDigitChars hne hdigits ?_).symm⟩
        intro rest hrest
        obtain ⟨rfl, rfl⟩ := List.cons.inj hrest
        by_contra hmore
        exact hzero ⟨rfl, hmore⟩

theorem areDigits_zeros (zeros n : Nat) : AreDigits n (List.replicate zeros '0' ++ decimal n) := by
  refine ⟨List.append_ne_nil_of_right_ne_nil _ (decimal_ne_nil n), ?_, ?_⟩
  · intro c hc
    rcases List.mem_append.mp hc with hzero | hdigit
    · rw [List.eq_of_mem_replicate hzero]
      rfl
    · exact allDigits_decimal n c hdigit
  · simp only [Nat.ofDigitChars_append, Nat.ofDigitChars_replicate_zero, Nat.mul_zero]
    exact Nat.ofDigitChars_ten_toDigits

/-- Digits stand for a number exactly if they are its decimal text behind zeros. -/
theorem areDigits_iff {n : Nat} {ds : List Char} :
    AreDigits n ds ↔ ∃ zeros, ds = List.replicate zeros '0' ++ decimal n := by
  constructor
  · rintro ⟨hne, hdigits, rfl⟩
    exact exists_zeros hne hdigits
  · rintro ⟨zeros, rfl⟩
    exact areDigits_zeros zeros n

theorem isNumeral_iff_isPrinted {n : Nat} {cs : List Char} : IsNumeral n cs ↔ IsPrinted n cs := by
  constructor
  · intro hnumeral
    cases hnumeral with
    | digits hdigits =>
        obtain ⟨zeros, rfl⟩ := areDigits_iff.mp hdigits
        exact .unsigned zeros
    | signed hdigits =>
        obtain ⟨zeros, rfl⟩ := areDigits_iff.mp hdigits
        exact .signed zeros
  · intro hprinted
    cases hprinted with
    | unsigned zeros => exact .digits (areDigits_iff.mpr ⟨zeros, rfl⟩)
    | signed zeros => exact .signed (areDigits_iff.mpr ⟨zeros, rfl⟩)

theorem IsNumeral.not_blank {n : Nat} {cs : List Char} (hnumeral : IsNumeral n cs) :
    ∀ c ∈ cs, isBlank c = false := by
  cases hnumeral with
  | digits hdigits => exact fun c hc => isBlank_of_isDigit (hdigits.2.1 c hc)
  | signed hdigits =>
      intro c hc
      rcases List.mem_cons.mp hc with rfl | hdigit
      · rfl
      · exact isBlank_of_isDigit (hdigits.2.1 c hdigit)

/-! ## Values in padded texts -/

/-- The text is a number as it is printed, with blanks around it. -/
def SpellsNumber (s : String) (n : Nat) : Prop := ∃ core, IsPrinted n core ∧ Padded core s.toList

/-- The text is the word for a truth value, with blanks around it. -/
def SpellsTruth (s : String) (b : Bool) : Prop := Padded (truthWord b).toList s.toList

theorem isNumeral_trim_iff {s : String} {n : Nat} :
    IsNumeral n (trim s).toList ↔ SpellsNumber s n := by
  rw [trim, String.toList_ofList]
  constructor
  · intro hnumeral
    exact ⟨_, isNumeral_iff_isPrinted.mp hnumeral, padded_trimmed _⟩
  · rintro ⟨core, hprinted, hpadded⟩
    have hnumeral := isNumeral_iff_isPrinted.mpr hprinted
    rwa [(trimmed_eq_iff_padded hnumeral.not_blank).mpr hpadded]

theorem truth?_trim_eq_some_iff {s : String} {b : Bool} :
    truth? (trim s) = some b ↔ SpellsTruth s b := by
  have hword : ∀ c ∈ (truthWord b).toList, isBlank c = false := by
    have hletters : ((truthWord b).toList.all fun c => !isBlank c) = true := by cases b <;> rfl
    simpa using hletters
  rw [truth?_eq_some_iff, SpellsTruth, ← trimmed_eq_iff_padded hword, trim, ← String.toList_inj,
    String.toList_ofList]

end VersionedBucket.Text
