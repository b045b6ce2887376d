import VersionedBucket.Proofs.Time.Iso
import VersionedBucket.Time.Rfc3339
import Mathlib.Tactic.SplitIfs

/-! # RFC 3339 times read back

A regular instant is read back from its written form to the nanosecond. The fraction has as many
digits as it needs, and the digits that are left out count for nothing. Whatever text is read, it is
read as a regular instant: second 60 is the only leap second that can be written, and offsets are
whole minutes.
-/

namespace VersionedBucket.Time

open Text

namespace Rfc3339

theorem separator_cons (rest : List Char) : separator ('T' :: rest) = .ok ((), rest) := rfl

theorem offset_utc : offset ['Z'] = .ok (0, []) := rfl

/-- A fraction of up to nine digits in front of the mark of the time zone. -/
theorem fraction_padded {width n : Nat} (hwidth : 0 < width) (hnine : width ≤ 9)
    (hlt : n < Nat.pow 10 width) :
    fraction ('.' :: (padded width n ++ ['Z'])) = .ok (n * Nat.pow 10 (9 - width), ['Z']) := by
  have hlength : (padded width n).length = width := length_padded hwidth hlt
  have hgreatest : n ≤ Scan.greatest := by
    have hpow : Nat.pow 10 width ≤ Nat.pow 10 9 := Nat.pow_le_pow_right (by decide) hnine
    have hbound : Nat.pow 10 9 ≤ Scan.greatest := by decide
    omega
  have hdigits : Scan.digits 9 (padded width n ++ ['Z']) = .ok (n, ['Z']) :=
    Scan.digits_append (areDigits_padded width n) hgreatest (by omega) (.inr (by rintro c ⟨⟩; rfl))
  have hcount : (padded width n ++ ['Z']).length - ['Z'].length = width := by
    rw [List.length_append, Nat.add_sub_cancel, hlength]
  rw [fraction, hdigits]
  simp only [bind, Except.bind, hcount]
  rfl

/-- All nanoseconds of a second are in its fraction. -/
theorem fraction_fractionText {nanos : Nat} (hlt : nanos < nanosPerSecond) :
    fraction (fractionText nanos ++ ['Z']) = .ok (nanos, ['Z']) := by
  rw [nanosPerSecond] at hlt
  unfold fractionText
  split_ifs with hzero hmillis hmicros
  · rw [hzero]
    rfl
  · have hback : nanos / 1000000 * Nat.pow 10 (9 - 3) = nanos :=
      Nat.div_mul_cancel (Nat.dvd_of_mod_eq_zero hmillis)
    rw [List.cons_append, fraction_padded (by decide) (by decide) (Nat.div_lt_of_lt_mul hlt), hback]
  · have hback : nanos / 1000 * Nat.pow 10 (9 - 6) = nanos :=
      Nat.div_mul_cancel (Nat.dvd_of_mod_eq_zero hmicros)
    rw [List.cons_append, fraction_padded (by decide) (by decide) (Nat.div_lt_of_lt_mul hlt), hback]
  · rw [List.cons_append, fraction_padded (by decide) (by decide) hlt]
    exact congrArg (fun n => Except.ok (n, ['Z'])) (Nat.mul_one nanos)

theorem fields_text {c : Civil} (hc : c.Possible) :
    fields (c.text ++ fractionText c.nanos ++ ['Z']) = .ok ((c, 0), []) := by
  obtain ⟨⟨hmonth, hmonth', hday, hday'⟩, hyear, hhour, hminute, hsecond, hnanos⟩ := hc
  have hdays := daysInMonth_le c.date.year c.date.month
  have hmark {mark : Char} (hmark : isBlank mark = false) (rest : List Char) :
      Scan.skipBlanks (mark :: rest) = .ok ((), mark :: rest) :=
    Scan.skipBlanks_append areBlank_nil (by rintro c ⟨⟩; exact hmark)
  simp only [Civil.text, List.append_assoc, List.cons_append]
  rw [fields,
    Scan.bind_of_ok
      (Scan.year_text (isYear_yearText _) (by omega) (by omega) (by rintro c ⟨⟩; rfl)),
    Scan.bind_of_ok (hmark rfl _), Scan.bind_of_ok (Scan.literal_cons ..),
    Scan.bind_of_ok (Scan.field_padded hmonth hmonth' (by decide)),
    Scan.bind_of_ok (hmark rfl _), Scan.bind_of_ok (Scan.literal_cons ..),
    Scan.bind_of_ok (Scan.field_padded hday (by omega) (by decide)),
    Scan.bind_of_ok (separator_cons _),
    Scan.bind_of_ok (Scan.field_padded (Nat.zero_le _) hhour (by decide)),
    Scan.bind_of_ok (hmark rfl _), Scan.bind_of_ok (Scan.literal_cons ..),
    Scan.bind_of_ok (Scan.field_padded (Nat.zero_le _) hminute (by decide)),
    Scan.bind_of_ok (hmark rfl _), Scan.bind_of_ok (Scan.literal_cons ..),
    Scan.bind_of_ok (Scan.field_padded (Nat.zero_le _) hsecond (by decide)),
    Scan.bind_of_ok (fraction_fractionText hnanos), Scan.bind_of_ok (hmark rfl _),
    Scan.bind_of_ok offset_utc]
  rfl

/-! ## What is read is regular -/

theorem ensures_fraction : Ensures fraction (· < nanosPerSecond) := by
  intro cs nanos rest hread
  unfold fraction at hread
  split at hread
  next text =>
      obtain ⟨⟨n, after⟩, hdigits, hnanos⟩ := bind_eq_ok_iff.mp hread
      obtain ⟨ds, rfl, ⟨-, hall, rfl⟩, hnine⟩ := Scan.exists_of_digits (fun _ => by decide) hdigits
      have hcount : (ds ++ after).length - after.length = ds.length := by
        rw [List.length_append, Nat.add_sub_cancel]
      simp only [hcount] at hnanos
      cases hnanos
      calc Nat.ofDigitChars 10 ds 0 * Nat.pow 10 (9 - ds.length)
        _ < Nat.pow 10 ds.length * Nat.pow 10 (9 - ds.length) :=
            Nat.mul_lt_mul_of_pos_right (ofDigitChars_lt hall) (Nat.pow_pos (by decide))
        _ = Nat.pow 10 (ds.length + (9 - ds.length)) := (Nat.pow_add ..).symm
        _ = Nat.pow 10 9 := by rw [Nat.add_sub_cancel' hnine]
  next =>
      cases hread
      decide

theorem ensures_numericOffset : Ensures numericOffset (· % 60 = 0) := by
  unfold numericOffset
  apply Ensures.after
  intro behind
  apply Ensures.after
  rintro ⟨h, h'⟩
  apply Ensures.after
  intro _
  apply Ensures.after
  rintro ⟨m, m'⟩
  have hminutes : (if behind then -(((h : Int) * 10 + h') * 3600 + (m * 10 + m') * 60)
      else ((h : Int) * 10 + h') * 3600 + (m * 10 + m') * 60) % 60 = 0 := by
    split <;> omega
  dsimp only
  split
  · apply Ensures.after
    exact fun _ => .pure hminutes
  · exact .pure hminutes

theorem ensures_offset : Ensures offset (· % 60 = 0) := by
  intro cs seconds rest hread
  unfold offset at hread
  split at hread
  · split at hread
    · cases hread
      rfl
    · split at hread
      · cases hread
        rfl
      · exact ensures_numericOffset _ _ _ hread
  · split at hread
    · cases hread
      rfl
    · exact ensures_numericOffset _ _ _ hread
  · cases hread

theorem ensures_fields : Ensures fields fun (c, seconds) => c.OnClock ∧ seconds % 60 = 0 := by
  unfold fields
  refine .after fun year => .after fun _ => .after fun _ => .after fun month => .after fun _ =>
    .after fun _ => .after fun day => .after fun _ => ?_
  refine .bind (Scan.ensures_field 0 23) fun hour hhour => .after fun _ => .after fun _ => ?_
  refine .bind (Scan.ensures_field 0 59) fun minute hminute => .after fun _ => .after fun _ => ?_
  refine .bind (Scan.ensures_field 0 60) fun second hsecond => ?_
  refine .bind ensures_fraction fun nanos hnanos => .after fun _ => ?_
  refine .bind ensures_offset fun seconds hseconds => .after fun _ => ?_
  exact .pure ⟨⟨hhour, hminute, hsecond, hnanos⟩, hseconds⟩

end Rfc3339

theorem Rfc3339.parse_isRegular {s : String} {t : Instant} (hparse : parse s = .ok t) :
    t.IsRegular := by
  obtain ⟨⟨c, seconds⟩, hfields, hinstant⟩ := bind_eq_ok_iff.mp hparse
  obtain ⟨hclock, hminutes⟩ := ensures_fields _ _ _ (Scan.whole_eq_ok_iff.mp hfields)
  dsimp only at hclock hminutes hinstant
  split at hinstant
  next => cases hinstant
  next local' hlocal =>
      obtain ⟨hregular, -⟩ := Instant.civil_of_instant? hclock hlocal
      split at hinstant
      · split at hinstant
        next t' ht =>
            cases hinstant
            -- whole minutes lie between the local time and UTC
            obtain ⟨hmoved, hnanos⟩ := Instant.fields_of_of? ht
            intro hleap
            have hlast := hregular (hnanos ▸ hleap)
            omega
        next => cases hinstant
      · cases hinstant

/-- What is written depends on clock and calendar alone. -/
theorem Rfc3339.format_shown (t : Instant) : format t.shown = format t := by
  rw [format, format, t.civil_shown]

theorem Rfc3339.parse_format (t : Instant) : parse (format t) = .ok t.shown := by
  have hfields : fields.whole (format t.shown) = .ok (t.shown.civil, 0) := by
    rw [Scan.whole, format, String.toList_ofList, fields_text t.shown.possible_civil]
  rw [← format_shown]
  simp only [parse, hfields, bind, Except.bind, Instant.instant?_civil t.isRegular_shown,
    Int.sub_zero, t.shown.of?_eq_some]
  rfl

end VersionedBucket.Time
