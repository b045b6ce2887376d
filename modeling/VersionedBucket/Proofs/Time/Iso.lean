import VersionedBucket.Proofs.Time.Instant
import VersionedBucket.Proofs.Time.Scan
import VersionedBucket.Time.Iso

/-! # The language of listing timestamps

What texts are read as times, apart from the order in which this is done. A text is read as a
regular instant exactly if it is a way of writing what clock and calendar show then: with short
fields, with blanks before a field, with a sign before the year, with three digits of fraction or
without any. What is written of an instant is one of these ways, to the millisecond. This holds of
years that need a sign, and of leap seconds at the end of a minute, which are written as a sixtieth
second. A leap second elsewhere is written as the second that follows, and is read as that.
-/

namespace VersionedBucket.Time

open Text

namespace Iso

/-! ## Timestamps -/

/-- Date and clock up to the whole second. -/
inductive IsClock (c : Civil) : List Char → Prop where
  | intro {year month day hour minute second : List Char} (hyear : IsYear c.date.year year)
      (hmonth : IsField c.date.month month) (hday : IsField c.date.day day)
      (hhour : IsField c.hour hour)
      (hminute : IsField c.minute minute) (hsecond : IsField c.second second) :
      IsClock c (year ++ '-' :: month ++ '-' :: day ++ 'T' :: hour ++ ':' :: minute ++
        ':' :: second)

/-- The two forms of a listing time. -/
inductive IsTimestamp (c : Civil) : List Char → Prop where
  | whole {clock : List Char} (hclock : IsClock c clock) (hnanos : c.nanos = 0) :
      IsTimestamp c (clock ++ ['Z'])
  | millis {clock ds : List Char} {n : Nat} (hclock : IsClock c clock) (hdigits : AreDigits n ds)
      (hlength : ds.length = 3)
      (hnanos : c.nanos = n * 1000000) : IsTimestamp c (clock ++ '.' :: ds ++ ['Z'])

theorem IsTimestamp.whole_millis {c : Civil} {text : List Char} (htext : IsTimestamp c text) :
    c.nanos % 1000000 = 0 := by
  cases htext with
  | whole hclock hnanos => rw [hnanos]
  | millis hclock hdigits hlength hnanos => rw [hnanos, Nat.mul_mod_left]

/-- What is written of clock and calendar. -/
theorem isClock_text {c : Civil} (hc : c.Possible) : IsClock c c.text := by
  obtain ⟨⟨hmonth, hmonth', hday, hday'⟩, hyear, hhour, hminute, hsecond, hnanos⟩ := hc
  have hdays := daysInMonth_le c.date.year c.date.month
  exact .intro (isYear_yearText _) (isField_padded (by omega)) (isField_padded (by omega))
    (isField_padded (by omega))
    (isField_padded (by omega)) (isField_padded (by omega))

theorem isTimestamp_format (t : Instant) :
    IsTimestamp t.truncateToMillis.civil (format t).toList := by
  have hc := t.possible_civil
  have hlength : (padded 3 (t.civil.nanos / 1000000)).length = 3 :=
    length_padded (by decide) (Nat.div_lt_of_lt_mul hc.clock.nanos)
  have hclock := isClock_text t.truncateToMillis.possible_civil
  rw [t.civil_truncateToMillis] at hclock ⊢
  rw [format, String.toList_ofList]
  exact .millis hclock (areDigits_padded 3 _) hlength rfl

/-! ## What the fields are read from -/

theorem fields_clock {fraction : Scan Nat} {c : Civil} {clock rest : List Char} (hc : c.Possible)
    (hclock : IsClock c clock) (hend : ∀ d ∈ rest.head?, d.isDigit = false) :
    fields fraction (clock ++ rest) =
      (do let nanos ← fraction
          Scan.literal 'Z'
          pure { c with nanos }) rest := by
  obtain ⟨⟨hmonthLeast, hmonthMost, hdayLeast, hdayMost⟩, hyearRange, hhourMost, hminuteMost,
    hsecondMost, _⟩ := hc
  have hdays := daysInMonth_le c.date.year c.date.month
  obtain ⟨hyear, hmonth, hday, hhour, hminute, hsecond⟩ := hclock
  have hmark {mark : Char} (hmark : mark.isDigit = false) (after : List Char) :
      ∀ d ∈ (mark :: after).head?, d.isDigit = false := by
    rintro d ⟨⟩
    exact hmark
  simp only [List.append_assoc, List.cons_append]
  rw [fields, Scan.bind_of_ok (Scan.year_text hyear (by omega) (by omega) (hmark rfl _)),
    Scan.bind_of_ok (Scan.literal_cons ..),
    Scan.bind_of_ok (Scan.field_text hmonth (hmark rfl _) hmonthLeast hmonthMost (by decide)),
    Scan.bind_of_ok (Scan.literal_cons ..),
    Scan.bind_of_ok (Scan.field_text hday (hmark rfl _) hdayLeast (by omega) (by decide)),
    Scan.bind_of_ok (Scan.literal_cons ..),
    Scan.bind_of_ok (Scan.field_text hhour (hmark rfl _) (Nat.zero_le _) hhourMost (by decide)),
    Scan.bind_of_ok (Scan.literal_cons ..),
    Scan.bind_of_ok (Scan.field_text hminute (hmark rfl _) (Nat.zero_le _) hminuteMost (by decide)),
    Scan.bind_of_ok (Scan.literal_cons ..),
    Scan.bind_of_ok (Scan.field_text hsecond hend (Nat.zero_le _) hsecondMost (by decide))]

theorem exists_of_fields {fraction : Scan Nat} {c : Civil} {cs rest : List Char}
    (hread : fields fraction cs = .ok (c, rest)) :
    ∃ clock after, cs = clock ++ after ∧ IsClock c clock ∧
      (c.hour ≤ 23 ∧ c.minute ≤ 59 ∧ c.second ≤ 60) ∧
        fraction after = .ok (c.nanos, 'Z' :: rest) := by
  -- a mark ends every field but the seconds, which the fraction may follow
  obtain ⟨year, _, _, rfl, hyear, hmonths⟩ := Scan.exists_of_marked Scan.exists_of_year hread
  obtain ⟨month, _, _, rfl, ⟨hmonth, _⟩, hdays⟩ :=
    Scan.exists_of_marked Scan.exists_of_field hmonths
  obtain ⟨day, _, _, rfl, ⟨hday, _⟩, hhours⟩ := Scan.exists_of_marked Scan.exists_of_field hdays
  obtain ⟨hour, _, _, rfl, ⟨hhour, hhourMost⟩, hminutes⟩ :=
    Scan.exists_of_marked Scan.exists_of_field hhours
  obtain ⟨minute, _, _, rfl, ⟨hminute, hminuteMost⟩, hseconds⟩ :=
    Scan.exists_of_marked Scan.exists_of_field hminutes
  obtain ⟨second, after, hnumber, hnanos⟩ := Scan.exists_of_bind_eq_ok hseconds
  obtain ⟨_, rfl, hsecond, hsecondMost⟩ := Scan.exists_of_field hnumber
  obtain ⟨nanos, _, hfraction, hmark⟩ := Scan.exists_of_bind_eq_ok hnanos
  obtain ⟨_, _, hliteral, hend⟩ := Scan.exists_of_bind_eq_ok hmark
  obtain rfl := Scan.eq_cons_of_literal hliteral
  cases hend
  exact ⟨_, after, by simp, .intro hyear hmonth hday hhour hminute hsecond,
    ⟨hhourMost, hminuteMost, hsecondMost⟩,
    hfraction⟩

/-! ## Fractions -/

theorem fraction_digits {n : Nat} {ds rest : List Char} (hdigits : AreDigits n ds)
    (hlength : ds.length = 3) :
    fraction ('.' :: ds ++ rest) = .ok (n * 1000000, rest) := by
  obtain ⟨-, hdigits, rfl⟩ := hdigits
  rw [List.cons_append, fraction, Scan.bind_of_ok (Scan.literal_cons ..)]
  match ds, hlength with
  | [a, b, c], _ =>
      simp only [List.cons_append, List.nil_append, millis, digit?_of_isDigit (hdigits a (by simp)),
        digit?_of_isDigit (hdigits b (by simp)), digit?_of_isDigit (hdigits c (by simp)),
        Nat.ofDigitChars_cons, Nat.ofDigitChars_nil]
      congr 3
      omega

theorem exists_of_fraction {nanos : Nat} {cs rest : List Char}
    (hread : fraction cs = .ok (nanos, rest)) :
    ∃ ds n, cs = '.' :: ds ++ rest ∧ AreDigits n ds ∧ ds.length = 3 ∧ nanos = n * 1000000 ∧
      n < 1000 := by
  obtain ⟨_, between, hpoint, hmillis⟩ := Scan.exists_of_bind_eq_ok hread
  obtain rfl := Scan.eq_cons_of_literal hpoint
  unfold millis at hmillis
  split at hmillis
  next a b c after =>
      split at hmillis
      next x y z hx hy hz =>
          obtain ⟨ha, rfl⟩ := digit?_eq_some_iff.mp hx
          obtain ⟨hb, rfl⟩ := digit?_eq_some_iff.mp hy
          obtain ⟨hc, rfl⟩ := digit?_eq_some_iff.mp hz
          cases hmillis
          have hlt := digit_lt_ten ha
          have hlt' := digit_lt_ten hb
          have hlt'' := digit_lt_ten hc
          refine ⟨[a, b, c], _, rfl, ⟨nofun, by simp [AllDigits, ha, hb, hc], rfl⟩, rfl, ?_⟩
          simp only [Nat.ofDigitChars_cons, Nat.ofDigitChars_nil]
          omega
      next => cases hmillis
  next => cases hmillis

/-! ## Reading -/

theorem parseWith_eq_ok_iff {fraction : Scan Nat} {s : String} {t : Instant}
    (hsmall : ∀ {cs nanos rest}, fraction cs = .ok (nanos, rest) → nanos < nanosPerSecond)
    (hstart : ∀ {cs nanos}, fraction cs = .ok (nanos, ['Z']) → ∀ c ∈ cs.head?, c.isDigit = false) :
    parseWith fraction s = .ok t ↔ t.IsRegular ∧
      ∃ clock after, s.toList = clock ++ after ∧ IsClock t.civil clock ∧
        fraction after = .ok (t.civil.nanos, ['Z']) := by
  constructor
  · intro hparse
    obtain ⟨c, hfields, hinstant⟩ := bind_eq_ok_iff.mp hparse
    obtain ⟨clock, after, hform, hclock, ⟨hhour, hminute, hsecond⟩, hfraction⟩ :=
      exists_of_fields (Scan.whole_eq_ok_iff.mp hfields)
    split at hinstant
    next t' ht =>
        cases hinstant
        obtain ⟨hregular, rfl⟩ :=
          Instant.civil_of_instant? ⟨hhour, hminute, hsecond, hsmall hfraction⟩ ht
        exact ⟨hregular, clock, after, hform, hclock, hfraction⟩
    next => cases hinstant
  · rintro ⟨hregular, clock, after, hform, hclock, hfraction⟩
    have hfields : (fields fraction).whole s = .ok t.civil := by
      rw [Scan.whole_eq_ok_iff, hform, fields_clock t.possible_civil hclock (hstart hfraction),
        Scan.bind_of_ok hfraction, Scan.bind_of_ok (Scan.literal_cons ..)]
      rfl
    simp only [parseWith, hfields, bind, Except.bind, Instant.instant?_civil hregular]

theorem parseWith_fraction_eq_ok_iff {s : String} {t : Instant} :
    parseWith fraction s = .ok t ↔ t.IsRegular ∧
      ∃ clock ds n, s.toList = clock ++ '.' :: ds ++ ['Z'] ∧ IsClock t.civil clock ∧
        AreDigits n ds ∧ ds.length = 3 ∧ t.civil.nanos = n * 1000000 := by
  rw [parseWith_eq_ok_iff]
  · apply and_congr_right
    intro _
    constructor
    · rintro ⟨clock, after, hform, hclock, hfraction⟩
      obtain ⟨ds, n, rfl, hdigits, hlength, hnanos, -⟩ := exists_of_fraction hfraction
      exact ⟨clock, ds, n, by rw [hform, List.append_assoc], hclock, hdigits, hlength, hnanos⟩
    · rintro ⟨clock, ds, n, hform, hclock, hdigits, hlength, hnanos⟩
      refine ⟨clock, '.' :: ds ++ ['Z'], by rw [hform, List.append_assoc], hclock, ?_⟩
      rw [fraction_digits hdigits hlength, hnanos]
  · intro cs nanos rest hfraction
    obtain ⟨_, n, -, -, -, rfl, hlt⟩ := exists_of_fraction hfraction
    exact Nat.mul_lt_mul_of_pos_right hlt (by decide)
  · intro cs nanos hfraction
    obtain ⟨ds, _, rfl, -⟩ := exists_of_fraction hfraction
    rintro c ⟨⟩
    rfl

theorem parseWith_pure_eq_ok_iff {s : String} {t : Instant} :
    parseWith (pure 0) s = .ok t ↔ t.IsRegular ∧
      ∃ clock, s.toList = clock ++ ['Z'] ∧ IsClock t.civil clock ∧ t.civil.nanos = 0 := by
  rw [parseWith_eq_ok_iff]
  · apply and_congr_right
    intro _
    constructor
    · rintro ⟨clock, after, hform, hclock, hfraction⟩
      obtain ⟨hnanos, rfl⟩ := Prod.mk.inj (Except.ok.inj hfraction)
      exact ⟨clock, hform, hclock, hnanos.symm⟩
    · rintro ⟨clock, hform, hclock, hnanos⟩
      refine ⟨clock, ['Z'], hform, hclock, ?_⟩
      rw [hnanos]
      rfl
  · rintro cs nanos rest ⟨⟩
    decide
  · rintro cs nanos ⟨⟩ c ⟨⟩
    rfl

/-- The texts that are read as an instant are the ways to write what clock and calendar show then.
Only regular instants are ever read. -/
theorem parse_eq_ok_iff {s : String} {t : Instant} :
    parse s = .ok t ↔ t.IsRegular ∧ IsTimestamp t.civil s.toList := by
  constructor
  · intro hparse
    unfold parse at hparse
    split at hparse
    next hwith =>
        cases hparse
        obtain ⟨hregular, clock, ds, n, hform, hclock, hdigits, hlength, hnanos⟩ :=
          parseWith_fraction_eq_ok_iff.mp hwith
        rw [hform]
        exact ⟨hregular, .millis hclock hdigits hlength hnanos⟩
    next =>
        obtain ⟨hregular, clock, hform, hclock, hnanos⟩ := parseWith_pure_eq_ok_iff.mp hparse
        rw [hform]
        exact ⟨hregular, .whole hclock hnanos⟩
  · generalize hform : s.toList = text
    rintro ⟨hregular, htext⟩
    cases htext with
    | @whole clock hclock hnanos =>
        -- without a fraction the reading with one fails at the mark of the time zone
        have hfields : fields fraction s.toList = .error .invalid := by
          rw [hform, fields_clock t.possible_civil hclock (by rintro c ⟨⟩; rfl)]
          rfl
        have hwith : parseWith fraction s = .error .invalid := by
          simp only [parseWith, Scan.whole, hfields, bind, Except.bind]
        rw [parse, hwith]
        exact parseWith_pure_eq_ok_iff.mpr ⟨hregular, clock, hform, hclock, hnanos⟩
    | @millis clock ds n hclock hdigits hlength hnanos =>
        have hwith : parseWith fraction s = .ok t :=
          parseWith_fraction_eq_ok_iff.mpr
            ⟨hregular, clock, ds, n, hform, hclock, hdigits, hlength, hnanos⟩
        rw [parse, hwith]

/-- What is written depends on clock and calendar alone. -/
theorem format_shown (t : Instant) : format t.shown = format t := by
  rw [format, format, t.civil_shown]

theorem parse_format (t : Instant) : parse (format t) = .ok t.shown.truncateToMillis := by
  rw [← format_shown]
  apply parse_eq_ok_iff.mpr
  exact ⟨Instant.isRegular_truncateToMillis t.isRegular_shown, isTimestamp_format t.shown⟩

theorem parse_isRegular {s : String} {t : Instant} (hparse : parse s = .ok t) : t.IsRegular :=
  (parse_eq_ok_iff.mp hparse).1

/-- Whatever way a time is written, it is read in whole milliseconds. -/
theorem parse_whole {s : String} {t : Instant} (hparse : parse s = .ok t) :
    t.nanos % 1000000 = 0 := by
  rw [← t.nanos_civil_mod]
  exact (parse_eq_ok_iff.mp hparse).2.whole_millis

/-- The regular instants are what clock and calendar show in the supported years, each of them once.
What is written of an instant is read as the last whole millisecond of the regular instant that is
shown like it: of the instant itself unless it lies in a leap second within a minute, of the same
fraction of the second that follows if it does. Read are all ways to write what clock and calendar
show and no other texts, as regular instants in whole milliseconds only, and what is written of
these is read as the same instant. -/
theorem timestamps_roundtrip :
    (∀ c : Civil, (∃! t : Instant, t.IsRegular ∧ t.civil = c) ↔ c.Possible) ∧
      (∀ t : Instant, ∃ floor, parse (format t) = .ok floor ∧ t.shown.IsFloor floor) ∧
      (∀ t : Instant, t.IsRegular → t.shown = t) ∧
      (∀ t : Instant, ¬ t.IsRegular →
        t.shown.seconds = t.seconds + 1 ∧ t.shown.nanos + nanosPerSecond = t.nanos) ∧
      (∀ s t, parse s = .ok t ↔ t.IsRegular ∧ IsTimestamp t.civil s.toList) ∧
      ∀ s t, parse s = .ok t → t.nanos % 1000000 = 0 ∧ parse (format t) = .ok t := by
  refine ⟨fun _ => Instant.existsUnique_civil_iff,
    fun t => ⟨_, parse_format t, t.shown.isFloor_truncateToMillis⟩,
    fun _ => Instant.shown_of_isRegular, fun _ => Instant.shown_of_not_isRegular,
    fun _ _ => parse_eq_ok_iff, ?_⟩
  intro s t hparse
  have hmillis := parse_whole hparse
  refine ⟨hmillis, ?_⟩
  rw [parse_format, Instant.shown_of_isRegular (parse_isRegular hparse),
    Instant.truncateToMillis_eq_self hmillis]

/-- A quarter of a second into the leap second that ends the leap day of year -4. -/
def leapSample : Instant := ⟨-62288265601, 1250000000, by decide, by decide, by decide⟩

theorem timestamps_roundtrip_leapSample :
    leapSample.IsRegular ∧ leapSample.shown = leapSample ∧
      parse " -4-2- 29T23: 59:60.250Z" = .ok leapSample ∧ leapSample.nanos % 1000000 = 0 ∧
      parse (format leapSample) = .ok leapSample := by
  have hregular : leapSample.IsRegular := by decide
  have hparse : parse " -4-2- 29T23: 59:60.250Z" = .ok leapSample := by rfl
  obtain ⟨-, -, hshown, -, -, hread⟩ := timestamps_roundtrip
  exact ⟨hregular, hshown _ hregular, hparse, hread _ _ hparse⟩

/-- A leap second within a minute is written as the second that follows, and does not come back. -/
theorem parse_format_withinMinute :
    format .withinMinute = "1970-01-01T00:00:06.500Z" ∧
      parse (format .withinMinute) = .ok ⟨6, 500000000, by decide, by decide, by decide⟩ ∧
      ¬ ∀ t : Instant, parse (format t) = .ok t.truncateToMillis := by
  have hread : parse (format .withinMinute) =
      .ok ⟨6, 500000000, by decide, by decide, by decide⟩ := by
    rw [parse_format]
    rfl
  refine ⟨rfl, hread, ?_⟩
  intro hall
  have hsame := hread.symm.trans (hall .withinMinute)
  exact absurd hsame (by decide)

end Iso

end VersionedBucket.Time
