import VersionedBucket.Proofs.Text.Numeral
import VersionedBucket.Time.Scan
import Mathlib.Data.List.TakeWhile

/-! # Fields of times

What texts the fields of a written time are read from: digits, as far as there is room for them,
after blanks, and before a year also a sign. A field is read from each of these texts and from no
other. Numbers with leading zeros are among them.
-/

namespace VersionedBucket.Time

open Text

/-! ## The texts of fields -/

def AreBlank (cs : List Char) : Prop := ∀ c ∈ cs, isBlank c = true

theorem areBlank_nil : AreBlank [] := List.forall_mem_nil _

/-- A number of one or two digits. -/
inductive IsField (n : Nat) : List Char → Prop where
  | intro {blanks ds : List Char} (hblanks : AreBlank blanks) (hdigits : AreDigits n ds)
      (hlength : ds.length ≤ 2) :
      IsField n (blanks ++ ds)

/-- A year of up to four digits, or of any number of them after a sign. -/
inductive IsYear : Int → List Char → Prop where
  | plain {n : Nat} {blanks ds : List Char} (hblanks : AreBlank blanks) (hdigits : AreDigits n ds)
      (hlength : ds.length ≤ 4) : IsYear n (blanks ++ ds)
  | plus {n : Nat} {blanks ds : List Char} (hblanks : AreBlank blanks) (hdigits : AreDigits n ds) :
      IsYear n (blanks ++ '+' :: ds)
  | minus {n : Nat} {blanks ds : List Char} (hblanks : AreBlank blanks) (hdigits : AreDigits n ds) :
      IsYear (-n) (blanks ++ '-' :: ds)

/-! ## Numbers with leading zeros -/

theorem allDigits_padded (width n : Nat) : AllDigits (padded width n) := by
  intro c hc
  rcases List.mem_append.mp hc with hzero | hdigit
  · rw [List.eq_of_mem_replicate hzero]
    decide
  · exact allDigits_decimal n c hdigit

theorem ofDigitChars_padded (width n : Nat) : Nat.ofDigitChars 10 (padded width n) 0 = n := by
  simp only [padded, Nat.ofDigitChars_append, Nat.ofDigitChars_replicate_zero, Nat.mul_zero]
  exact Nat.ofDigitChars_ten_toDigits

theorem padded_ne_nil (width n : Nat) : padded width n ≠ [] :=
  List.append_ne_nil_of_right_ne_nil _ (decimal_ne_nil n)

theorem areDigits_padded (width n : Nat) : AreDigits n (padded width n) :=
  ⟨padded_ne_nil width n, allDigits_padded width n, ofDigitChars_padded width n⟩

/-- A number that has no more digits than the width is written in exactly the width. -/
theorem length_padded {width n : Nat} (hwidth : 0 < width) (hlt : n < Nat.pow 10 width) :
    (padded width n).length = width := by
  have hle : (decimal n).length ≤ width := (Nat.length_toDigits_le_iff (by decide) hwidth).mpr hlt
  simp only [padded, List.length_append, List.length_replicate]
  omega

theorem isField_padded {n : Nat} (hlt : n < 100) : IsField n (padded 2 n) :=
  @IsField.intro _ [] _ areBlank_nil (areDigits_padded 2 n)
    (Nat.le_of_eq (length_padded (by decide) hlt))

theorem isYear_yearText (y : Int) : IsYear y (yearText y) := by
  unfold yearText
  split
  next hplain =>
      have hyear : IsYear y.toNat (padded 4 y.toNat) :=
        @IsYear.plain _ [] _ areBlank_nil (areDigits_padded 4 y.toNat)
        (Nat.le_of_eq (length_padded (by decide) (show y.toNat < 10000 by omega)))
      rwa [Int.toNat_of_nonneg hplain.1] at hyear
  next hsigned =>
      split
      next hnegative =>
          have hyear : IsYear (-(-y).toNat) ('-' :: padded 4 (-y).toNat) :=
            @IsYear.minus _ [] _ areBlank_nil (areDigits_padded 4 _)
          rwa [Int.toNat_of_nonneg (by omega), Int.neg_neg] at hyear
      next hpositive =>
          have hyear : IsYear y.toNat ('+' :: padded 4 y.toNat) :=
            @IsYear.plus _ [] _ areBlank_nil (areDigits_padded 4 _)
          rwa [Int.toNat_of_nonneg (by omega)] at hyear

namespace Scan

/-! ## Scans one after the other -/

theorem bind_of_ok {α β : Type} {x : Scan α} {f : α → Scan β} {cs rest : List Char} {a : α}
    (hok : x cs = .ok (a, rest)) : (x >>= f) cs = f a rest := by
  show (x cs >>= fun r => f r.1 r.2) = f a rest
  rw [hok]
  rfl

theorem exists_of_bind_eq_ok {α β : Type} {x : Scan α} {f : α → Scan β} {cs rest : List Char}
    {b : β} (hok : (x >>= f) cs = .ok (b, rest)) :
    ∃ a between, x cs = .ok (a, between) ∧ f a between = .ok (b, rest) := by
  obtain ⟨⟨a, between⟩, hfirst, hnext⟩ := bind_eq_ok_iff.mp hok
  exact ⟨a, between, hfirst, hnext⟩

theorem whole_eq_ok_iff {α : Type} {scan : Scan α} {s : String} {a : α} :
    scan.whole s = .ok a ↔ scan s.toList = .ok (a, []) := by
  unfold whole
  split
  next hresult =>
      rw [hresult]
      constructor <;> nofun
  next hresult =>
      rw [hresult]
      constructor <;> rintro ⟨⟩ <;> rfl
  next hresult =>
      rw [hresult]
      constructor <;> nofun

theorem literal_cons (c : Char) (rest : List Char) :
    literal c (c :: rest) = .ok ((), rest) := if_pos rfl

theorem eq_cons_of_literal {c : Char} {cs rest : List Char} {u : Unit}
    (hread : literal c cs = .ok (u, rest)) :
    cs = c :: rest := by
  cases cs with
  | nil => cases hread
  | cons d cs =>
      rw [literal] at hread
      split at hread
      next heq =>
          cases hread
          rw [heq]
      next => cases hread

/-- A field is followed by a mark. -/
theorem exists_of_marked {α β : Type} {x : Scan α} {IsText : α → List Char → Prop} {mark : Char}
    {f : α → Scan β} {cs rest : List Char} {b : β}
    (hx : ∀ {a between}, x cs = .ok (a, between) → ∃ text, cs = text ++ between ∧ IsText a text)
    (hread : (do let a ← x
                 literal mark
                 f a) cs = .ok (b, rest)) :
    ∃ a text after, cs = text ++ mark :: after ∧ IsText a text ∧ f a after = .ok (b, rest) := by
  obtain ⟨a, between, hfirst, hmark⟩ := exists_of_bind_eq_ok hread
  obtain ⟨text, hform, htext⟩ := hx hfirst
  obtain ⟨_, after, hliteral, hnext⟩ := exists_of_bind_eq_ok hmark
  rw [eq_cons_of_literal hliteral] at hform
  exact ⟨a, text, after, hform, htext, hnext⟩

theorem skipBlanks_append {blanks cs : List Char} (hblanks : AreBlank blanks)
    (hhead : ∀ c ∈ cs.head?, isBlank c = false) : skipBlanks (blanks ++ cs) = .ok ((), cs) := by
  rw [skipBlanks, List.dropWhile_append_of_pos hblanks]
  cases cs with
  | nil => rfl
  | cons c cs =>
      rw [List.dropWhile_cons_of_neg]
      rw [hhead c rfl]
      exact Bool.false_ne_true

theorem exists_of_skipBlanks {cs rest : List Char} {u : Unit}
    (hread : skipBlanks cs = .ok (u, rest)) :
    ∃ blanks, AreBlank blanks ∧ cs = blanks ++ rest := by
  cases hread
  exact ⟨cs.takeWhile isBlank, fun c hc => List.mem_takeWhile_imp hc,
    List.takeWhile_append_dropWhile.symm⟩

/-! ## Digits -/

/-- Digits are read until there is no more room or another character follows. -/
theorem moreDigits_append {value room : Nat} {ds rest : List Char} (hdigits : AllDigits ds)
    (hroom : ds.length ≤ room) (hend : ds.length = room ∨ ∀ c ∈ rest.head?, c.isDigit = false)
    (hgreatest : Nat.ofDigitChars 10 ds value ≤ greatest) :
    moreDigits value room (ds ++ rest) = .ok (Nat.ofDigitChars 10 ds value, rest) := by
  induction ds generalizing value room with
  | nil =>
      cases room with
      | zero => rfl
      | succ room =>
          cases rest with
          | nil => rfl
          | cons c rest =>
              have hother := hend.resolve_left (by simp) c rfl
              simp only [List.nil_append, moreDigits, digit?_eq_none hother, Nat.ofDigitChars_nil]
  | cons c ds ih =>
      cases room with
      | zero => simp at hroom
      | succ room =>
          rw [Nat.ofDigitChars_cons, Nat.mul_comm] at hgreatest ⊢
          have hfits := Nat.le_trans (le_ofDigitChars ds _) hgreatest
          rw [List.cons_append, moreDigits, digit?_of_isDigit (hdigits c List.mem_cons_self)]
          simp only [hfits, if_true]
          refine ih (fun d hd => hdigits d (List.mem_cons_of_mem _ hd))
            (Nat.le_of_succ_le_succ hroom) ?_ hgreatest
          exact hend.imp_left Nat.succ.inj

theorem exists_of_moreDigits {value room n : Nat} {cs rest : List Char}
    (hread : moreDigits value room cs = .ok (n, rest)) :
    ∃ ds, cs = ds ++ rest ∧ AllDigits ds ∧ ds.length ≤ room ∧
      (ds.length = room ∨ ∀ c ∈ rest.head?, c.isDigit = false) ∧
        Nat.ofDigitChars 10 ds value = n := by
  fun_induction moreDigits value room cs with
  | case1 value cs =>
      cases hread
      exact ⟨[], rfl, nofun, Nat.le_refl 0, .inl rfl, rfl⟩
  | case2 value room =>
      cases hread
      exact ⟨[], rfl, nofun, Nat.zero_le _, .inr nofun, rfl⟩
  | case3 value room c cs hother =>
      cases hread
      refine ⟨[], rfl, nofun, Nat.zero_le _, .inr ?_, rfl⟩
      rintro _ ⟨⟩
      cases hdigit : c.isDigit with
      | false => rfl
      | true => rw [digit?_of_isDigit hdigit] at hother; cases hother
  | case4 value room c cs d hdigit hfits ih =>
      obtain ⟨ds, rfl, hdigits, hlength, hend, hvalue⟩ := ih hread
      obtain ⟨hfirst, rfl⟩ := digit?_eq_some_iff.mp hdigit
      refine ⟨c :: ds, rfl, List.forall_mem_cons.mpr ⟨hfirst, hdigits⟩, Nat.succ_le_succ hlength,
        hend.imp_left (congrArg Nat.succ), ?_⟩
      rwa [Nat.ofDigitChars_cons, Nat.mul_comm]
  | case5 value room c cs d hdigit hfits => cases hread

/-- The value of digits is found where no digit follows, or where there is no more room. -/
theorem digits_append {room n : Nat} {ds rest : List Char} (hdigits : AreDigits n ds)
    (hgreatest : n ≤ greatest) (hroom : ds.length ≤ room)
    (hend : ds.length = room ∨ ∀ c ∈ rest.head?, c.isDigit = false) :
    digits room (ds ++ rest) = .ok (n, rest) := by
  obtain ⟨hne, hdigits, rfl⟩ := hdigits
  rw [← moreDigits_append hdigits hroom hend hgreatest]
  cases ds with
  | nil => exact absurd rfl hne
  | cons c ds =>
      have hfirst : (digit? c).isSome = true := by
        rw [digit?_of_isDigit (hdigits c List.mem_cons_self)]; rfl
      simp only [List.cons_append, digits, hfirst, if_true]

theorem exists_of_digits {room n : Nat} {cs rest : List Char} (hroom : cs ≠ [] → 0 < room)
    (hread : digits room cs = .ok (n, rest)) :
    ∃ ds, cs = ds ++ rest ∧ AreDigits n ds ∧ ds.length ≤ room := by
  cases cs with
  | nil => cases hread
  | cons c cs =>
      rw [digits] at hread
      split at hread
      next hdigit =>
          obtain ⟨ds, hform, hdigits, hlength, hend, hvalue⟩ := exists_of_moreDigits hread
          refine ⟨ds, hform, ⟨?_, hdigits, hvalue⟩, hlength⟩
          -- at least the first character is read: it is a digit, and there is room for it
          rintro rfl
          rcases hend with hnone | hother
          · exact Nat.ne_of_lt (hroom (List.cons_ne_nil c cs)) hnone
          · obtain ⟨d, hd⟩ := Option.isSome_iff_exists.mp hdigit
            have hfirst := hother c (by rw [List.nil_append] at hform; rw [← hform]; rfl)
            rw [digit?_eq_none hfirst] at hd
            cases hd
      next => cases hread

/-- As many digits as there are make up a number before a character that is none. -/
theorem allDigits_append {n : Nat} {ds rest : List Char} (hdigits : AreDigits n ds)
    (hgreatest : n ≤ greatest) (hend : ∀ c ∈ rest.head?, c.isDigit = false) :
    allDigits (ds ++ rest) = .ok (n, rest) := by
  refine digits_append hdigits hgreatest ?_ (.inr hend)
  rw [List.length_append]
  exact Nat.le_add_right ..

theorem exists_of_allDigits {n : Nat} {cs rest : List Char} (hread : allDigits cs = .ok (n, rest)) :
    ∃ ds, cs = ds ++ rest ∧ AreDigits n ds := by
  obtain ⟨ds, hform, hdigits, _⟩ := exists_of_digits List.length_pos_of_ne_nil hread
  exact ⟨ds, hform, hdigits⟩

/-! ## Fields and years -/

theorem head_append {n : Nat} {ds rest : List Char} {c : Char} (hdigits : AreDigits n ds)
    (hc : c ∈ (ds ++ rest).head?) : c.isDigit = true := by
  obtain ⟨hne, hdigits, _⟩ := hdigits
  cases ds with
  | nil => exact absurd rfl hne
  | cons d ds =>
      cases hc
      exact hdigits c List.mem_cons_self

/-- Blanks are skipped up to the digits. -/
theorem skipBlanks_digits {n : Nat} {blanks ds rest : List Char} (hblanks : AreBlank blanks)
    (hdigits : AreDigits n ds) : skipBlanks (blanks ++ (ds ++ rest)) = .ok ((), ds ++ rest) :=
  skipBlanks_append hblanks fun _ hc => isBlank_of_isDigit (head_append hdigits hc)

theorem field_append {least most n : Nat} {blanks ds rest : List Char} (hblanks : AreBlank blanks)
    (hdigits : AreDigits n ds) (hlength : ds.length ≤ 2)
    (hend : ds.length = 2 ∨ ∀ c ∈ rest.head?, c.isDigit = false) (hleast : least ≤ n)
    (hmost : n ≤ most) (hgreatest : most ≤ greatest) :
    field least most (blanks ++ (ds ++ rest)) = .ok (n, rest) := by
  rw [field, bind_of_ok (skipBlanks_digits hblanks hdigits),
    bind_of_ok (digits_append hdigits (Nat.le_trans hmost hgreatest) hlength hend),
    if_pos ⟨hleast, hmost⟩]
  rfl

theorem field_text {least most n : Nat} {text rest : List Char} (htext : IsField n text)
    (hend : ∀ c ∈ rest.head?, c.isDigit = false) (hleast : least ≤ n) (hmost : n ≤ most)
    (hgreatest : most ≤ greatest) :
    field least most (text ++ rest) = .ok (n, rest) := by
  obtain ⟨hblanks, hdigits, hlength⟩ := htext
  rw [List.append_assoc]
  exact field_append hblanks hdigits hlength (.inr hend) hleast hmost hgreatest

/-- After two digits another one may follow. -/
theorem field_padded {least most n : Nat} {rest : List Char} (hleast : least ≤ n) (hmost : n ≤ most)
    (hlt : most < 100) : field least most (padded 2 n ++ rest) = .ok (n, rest) := by
  have hlength : (padded 2 n).length = 2 := length_padded (by decide) (Nat.lt_of_le_of_lt hmost hlt)
  exact field_append areBlank_nil (areDigits_padded 2 n) (Nat.le_of_eq hlength)
    (.inl hlength) hleast hmost
    (Nat.le_trans (Nat.le_of_lt hlt) (by decide))

theorem exists_of_field {least most n : Nat} {cs rest : List Char}
    (hread : field least most cs = .ok (n, rest)) :
    ∃ text, cs = text ++ rest ∧ IsField n text ∧ n ≤ most := by
  obtain ⟨_, between, hskip, hfield⟩ := exists_of_bind_eq_ok hread
  obtain ⟨blanks, hblanks, rfl⟩ := exists_of_skipBlanks hskip
  obtain ⟨m, after, hnumber, hlimits⟩ := exists_of_bind_eq_ok hfield
  obtain ⟨ds, rfl, hdigits, hlength⟩ := exists_of_digits (fun _ => by decide) hnumber
  split at hlimits
  next hrange =>
      cases hlimits
      exact ⟨blanks ++ ds, (List.append_assoc ..).symm, .intro hblanks hdigits hlength, hrange.2⟩
  next => cases hlimits

theorem ensures_field (least most : Nat) : Ensures (field least most) (· ≤ most) := by
  intro cs n rest hread
  obtain ⟨_, -, -, hmost⟩ := exists_of_field hread
  exact hmost

/-- Four digits are read as they are; a sign says that there are as many as needed. -/
theorem year_text {y : Int} {text rest : List Char} (htext : IsYear y text) (hlow : -2147483648 ≤ y)
    (hhigh : y ≤ 2147483647) (hend : ∀ c ∈ rest.head?, c.isDigit = false) :
    year (text ++ rest) = .ok (y, rest) := by
  have hnatural {n : Nat} (hle : n ≤ 2147483648) : n ≤ greatest := Nat.le_trans hle (by decide)
  have hrange :
      (if -2147483648 ≤ y ∧ y ≤ 2147483647 then pure y else fail .outOfRange : Scan Int) rest =
        .ok (y, rest) := by
    rw [if_pos ⟨hlow, hhigh⟩]
    rfl
  unfold year
  cases htext with
  | @plain n blanks ds hblanks hdigits hlength =>
      rw [List.append_assoc, bind_of_ok (skipBlanks_digits hblanks hdigits)]
      refine (bind_of_ok (show _ = Except.ok ((n : Int), rest) from ?_)).trans hrange
      split
      next heq =>
        exact absurd (head_append hdigits (congrArg List.head? heq) : '-'.isDigit = true)
          (by decide)
      next heq =>
        exact absurd (head_append hdigits (congrArg List.head? heq) : '+'.isDigit = true)
          (by decide)
      · rw [digits_append hdigits (hnatural (by omega)) hlength (.inr hend)]
        rfl
  | @plus n blanks ds hblanks hdigits =>
      rw [List.append_assoc, bind_of_ok (skipBlanks_append hblanks (by rintro c ⟨⟩; rfl))]
      refine (bind_of_ok (show _ = Except.ok ((n : Int), rest) from ?_)).trans hrange
      show (allDigits (ds ++ rest)).map _ = _
      rw [allDigits_append hdigits (hnatural (by omega)) hend]
      rfl
  | @minus n blanks ds hblanks hdigits =>
      rw [List.append_assoc, bind_of_ok (skipBlanks_append hblanks (by rintro c ⟨⟩; rfl))]
      refine (bind_of_ok (show _ = Except.ok (-(n : Int), rest) from ?_)).trans hrange
      show (allDigits (ds ++ rest)).map _ = _
      rw [allDigits_append hdigits (hnatural (by omega)) hend]
      rfl

theorem exists_of_year {y : Int} {cs rest : List Char} (hread : year cs = .ok (y, rest)) :
    ∃ text, cs = text ++ rest ∧ IsYear y text := by
  obtain ⟨_, between, hskip, hyear⟩ := exists_of_bind_eq_ok hread
  obtain ⟨blanks, hblanks, rfl⟩ := exists_of_skipBlanks hskip
  obtain ⟨z, after, hnumber, hlimits⟩ := exists_of_bind_eq_ok hyear
  split at hlimits
  next =>
      cases hlimits
      split at hnumber
      · obtain ⟨⟨n, after⟩, hmagnitude, hresult⟩ := map_eq_ok_iff.mp hnumber
        cases hresult
        obtain ⟨ds, rfl, hdigits⟩ := exists_of_allDigits hmagnitude
        exact ⟨blanks ++ '-' :: ds, by simp, .minus hblanks hdigits⟩
      · obtain ⟨⟨n, after⟩, hmagnitude, hresult⟩ := map_eq_ok_iff.mp hnumber
        cases hresult
        obtain ⟨ds, rfl, hdigits⟩ := exists_of_allDigits hmagnitude
        exact ⟨blanks ++ '+' :: ds, by simp, .plus hblanks hdigits⟩
      · obtain ⟨⟨n, after⟩, hmagnitude, hresult⟩ := map_eq_ok_iff.mp hnumber
        cases hresult
        obtain ⟨ds, rfl, hdigits, hlength⟩ := exists_of_digits (fun _ => by decide) hmagnitude
        exact ⟨blanks ++ ds, by simp, .plain hblanks hdigits hlength⟩
  next => cases hlimits

end Scan

end VersionedBucket.Time
