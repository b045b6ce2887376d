import VersionedBucket.Proofs.Text.Padding
import VersionedBucket.Request
import Mathlib.Data.List.Nodup

/-! # Settings from variables

What comes of three variables, whatever they are set to. Each setting is what its own variable says,
or the default if that variable is not set or says nothing that can be used; a user hears of exactly
the variables whose values cannot be read. Settings that come of variables give every request a page
size that passes the test, and settings with such a page size come of variables that spell them out.
-/

namespace VersionedBucket.Settings

open Text

/-! ## What variables say -/

/-- A setting is what its variable stands for. It is the default if the variable is not set or
stands for nothing. -/
inductive Takes {α : Type} (stands : String → α → Prop) (default : α) :
    Option String → α → Prop where
  | said {s : String} {a : α} (hstands : stands s a) : Takes stands default (some s) a
  | unset : Takes stands default none default
  | unsaid {s : String} (hstands : ∀ a, ¬ stands s a) : Takes stands default (some s) default

/-- Page sizes are numbers from 1 to 1000. -/
def SaysPageSize (s : String) (n : UInt16) : Prop := SpellsNumber s n.toNat ∧ 1 ≤ n ∧ n ≤ 1000

/-- Any number of 64 bits limits a walk. -/
def SaysPageLimit (s : String) (limit : Option UInt64) : Prop :=
  ∃ n, limit = some n ∧ SpellsNumber s n.toNat

/-- A variable is set and its value cannot be read: it is no number of 16 bits, no truth value or no
number of 64 bits. -/
inductive Unread (lookup : String → Option String) : Notice → Prop where
  | maxKeys {s : String} (hset : lookup maxKeysVariable = some s)
      (hunread : ∀ n : UInt16, ¬ SpellsNumber s n.toNat) :
      Unread lookup (.unparsable maxKeysVariable s)
  | urlEncoding {s : String} (hset : lookup urlEncodingVariable = some s)
      (hunread : ∀ b, ¬ SpellsTruth s b) :
      Unread lookup (.unparsable urlEncodingVariable s)
  | maxPages {s : String} (hset : lookup maxPagesVariable = some s)
      (hunread : ∀ n : UInt64, ¬ SpellsNumber s n.toNat) :
      Unread lookup (.unparsable maxPagesVariable s)

/-- What settings and notices come of variables. Each of the settings has to do with its
own variable alone. -/
structure ComeOf (lookup : String → Option String) (settings : Settings) (notices : List Notice) :
    Prop where
  defaultMaxKeys : Takes SaysPageSize 1000 (lookup maxKeysVariable) settings.defaultMaxKeys
  urlEncoding : Takes SpellsTruth true (lookup urlEncodingVariable) settings.urlEncoding
  maxPages : Takes SaysPageLimit none (lookup maxPagesVariable) settings.maxPages
  mem_notices : ∀ notice, notice ∈ notices ↔ Unread lookup notice
  nodup_notices : notices.Nodup

/-- The variables are the settings as they are printed. Without a limit of pages its variable
is not set. -/
structure SpellOut (lookup : String → Option String) (settings : Settings) : Prop where
  defaultMaxKeys : ∃ s, lookup maxKeysVariable = some s ∧
    SpellsNumber s settings.defaultMaxKeys.toNat
  urlEncoding : ∃ s, lookup urlEncodingVariable = some s ∧ SpellsTruth s settings.urlEncoding
  maxPages : match settings.maxPages with
    | none => lookup maxPagesVariable = none
    | some n => ∃ s, lookup maxPagesVariable = some s ∧ SpellsNumber s n.toNat

/-! ## How they are read -/

section Reading

variable {α : Type} {stands : String → α → Prop} {read : String → Option α} {default a : α}
  {value : Option String}

theorem takes_iff (hread : ∀ {s a}, read s = some a ↔ stands s a) :
    Takes stands default value a ↔ (value.bind read).getD default = a := by
  constructor
  · intro htakes
    cases htakes with
    | said hstands =>
        rw [Option.bind_some, hread.mpr hstands]
        rfl
    | unset => rfl
    | @unsaid s hstands =>
        have hnone : read s = none :=
          Option.eq_none_iff_forall_ne_some.mpr fun a ha => hstands a (hread.mp ha)
        rw [Option.bind_some, hnone]
        rfl
  · rintro rfl
    cases value with
    | none => exact .unset
    | some s =>
        rw [Option.bind_some]
        cases hs : read s with
        | none =>
            apply Takes.unsaid
            intro a hstands
            rw [hread.mpr hstands] at hs
            cases hs
        | some a => exact .said (hread.mp hs)

/-- There is a notice about a variable exactly if it is set and its text stands for nothing. -/
theorem mem_unparsable_iff (reader : String → Option α)
    (hreader : ∀ {s a}, reader (trim s) = some a ↔ stands s a) {variableName : String}
    {notice : Notice} : notice ∈ unparsable reader variableName value ↔
      ∃ s, value = some s ∧ (∀ a, ¬ stands s a) ∧ notice = .unparsable variableName s := by
  cases value with
  | none => simp [unparsable]
  | some s =>
      have hnone : (reader (trim s)).isNone = true ↔ ∀ a, ¬ stands s a := by
        rw [Option.isNone_iff_eq_none, Option.eq_none_iff_forall_ne_some]
        exact forall_congr' fun a => not_congr hreader
      by_cases hunread : ∀ a, ¬ stands s a
      · simp [unparsable, hnone.mpr hunread, hunread]
      · have hsome : (reader (trim s)).isNone = false := by
          rw [Bool.eq_false_iff]
          exact fun hisNone => hunread (hnone.mp hisNone)
        simp [unparsable, hsome, hunread]

theorem nodup_unparsable (reader : String → Option α) (variableName : String)
    (value : Option String) :
    (unparsable reader variableName value).Nodup := by
  cases value with
  | none => exact List.nodup_nil
  | some s =>
      unfold unparsable
      dsimp only
      split
      · exact List.nodup_singleton _
      · exact List.nodup_nil

theorem exists_of_mem_unparsable {variableName : String} {notice : Notice}
    (hnotice : notice ∈ unparsable read variableName value) :
    ∃ s, notice = .unparsable variableName s := by
  cases value with
  | none => cases hnotice
  | some s =>
      unfold unparsable at hnotice
      dsimp only at hnotice
      split at hnotice
      · exact ⟨s, List.mem_singleton.mp hnotice⟩
      · cases hnotice

/-- Notices about different variables are different. -/
theorem ne_of_mem_unparsable {β : Type} {read' : String → Option β} {value' : Option String}
    {name name' : String} (hname : name ≠ name') {notice notice' : Notice}
    (hnotice : notice ∈ unparsable read name value)
    (hnotice' : notice' ∈ unparsable read' name' value') : notice ≠ notice' := by
  obtain ⟨s, rfl⟩ := exists_of_mem_unparsable hnotice
  obtain ⟨s', rfl⟩ := exists_of_mem_unparsable hnotice'
  intro heq
  exact hname (Notice.unparsable.inj heq).1

end Reading

variable {s : String}

theorem readUInt16_trim_iff {n : UInt16} :
    (Numeral.readUInt16 (trim s)).toOption = some n ↔ SpellsNumber s n.toNat := by
  rw [toOption_eq_some_iff, readUInt16_eq_ok_iff, isNumeral_trim_iff]

theorem readUInt64_trim_iff {n : UInt64} :
    (Numeral.readUInt64 (trim s)).toOption = some n ↔ SpellsNumber s n.toNat := by
  rw [toOption_eq_some_iff, readUInt64_eq_ok_iff, isNumeral_trim_iff]

/-! ## What comes of variables -/

variable {lookup : String → Option String}

theorem takes_defaultMaxKeys_iff {n : UInt16} :
    Takes SaysPageSize 1000 (lookup maxKeysVariable) n ↔
      (ofVariables lookup).1.defaultMaxKeys = n := by
  have hread {s : String} {n : UInt16} :
      ((Numeral.readUInt16 (trim s)).toOption.filter fun n => 1 ≤ n && n ≤ maxKeysLimit) = some n ↔
        SaysPageSize s n := by
    rw [Option.filter_eq_some_iff, readUInt16_trim_iff, SaysPageSize, Bool.and_eq_true,
      decide_eq_true_eq, decide_eq_true_eq]
    rfl
  have hfilter {value : Option String} {read : String → Option UInt16} {p : UInt16 → Bool} :
      (value.bind read).filter p = value.bind fun s => (read s).filter p := by
    cases value <;> rfl
  rw [takes_iff hread, ← hfilter]
  exact Iff.rfl

theorem takes_urlEncoding_iff {b : Bool} :
    Takes SpellsTruth true (lookup urlEncodingVariable) b ↔
      (ofVariables lookup).1.urlEncoding = b :=
  takes_iff truth?_trim_eq_some_iff

theorem takes_maxPages_iff {limit : Option UInt64} :
    Takes SaysPageLimit none (lookup maxPagesVariable) limit ↔
      (ofVariables lookup).1.maxPages = limit := by
  have hread {s : String} {limit : Option UInt64} :
      (Numeral.readUInt64 (trim s)).toOption.map some = some limit ↔ SaysPageLimit s limit := by
    rw [Option.map_eq_some_iff]
    apply exists_congr
    intro n
    rw [readUInt64_trim_iff, and_comm, eq_comm]
  rw [takes_iff hread]
  simp only [ofVariables, readVariable]
  cases lookup maxPagesVariable with
  | none => rfl
  | some s =>
      rw [Option.bind_some, Option.bind_some]
      cases (Numeral.readUInt64 (trim s)).toOption <;> rfl

theorem mem_notices_iff {notice : Notice} :
    notice ∈ (ofVariables lookup).2 ↔ Unread lookup notice := by
  simp only [ofVariables, List.mem_append,
    mem_unparsable_iff (fun s => (Numeral.readUInt16 s).toOption) readUInt16_trim_iff,
    mem_unparsable_iff truth? truth?_trim_eq_some_iff,
    mem_unparsable_iff (fun s => (Numeral.readUInt64 s).toOption) readUInt64_trim_iff]
  constructor
  · rintro ((⟨s, hset, hunread, rfl⟩ | ⟨s, hset, hunread, rfl⟩) | ⟨s, hset, hunread, rfl⟩)
    · exact .maxKeys hset hunread
    · exact .urlEncoding hset hunread
    · exact .maxPages hset hunread
  · intro hnotice
    cases hnotice with
    | maxKeys hset hunread => exact Or.inl (Or.inl ⟨_, hset, hunread, rfl⟩)
    | urlEncoding hset hunread => exact Or.inl (Or.inr ⟨_, hset, hunread, rfl⟩)
    | maxPages hset hunread => exact Or.inr ⟨_, hset, hunread, rfl⟩

theorem nodup_notices (lookup : String → Option String) : (ofVariables lookup).2.Nodup := by
  simp only [ofVariables, List.nodup_append, nodup_unparsable, true_and, List.mem_append]
  constructor
  · intro a ha b hb
    exact ne_of_mem_unparsable (by decide) ha hb
  · intro a ha b hb
    rcases ha with ha | ha
    · exact ne_of_mem_unparsable (by decide) ha hb
    · exact ne_of_mem_unparsable (by decide) ha hb

theorem comeOf_ofVariables (lookup : String → Option String) :
    ComeOf lookup (ofVariables lookup).1 (ofVariables lookup).2 where
  defaultMaxKeys := takes_defaultMaxKeys_iff.mpr rfl
  urlEncoding := takes_urlEncoding_iff.mpr rfl
  maxPages := takes_maxPages_iff.mpr rfl
  mem_notices _ := mem_notices_iff
  nodup_notices := nodup_notices lookup

theorem ComeOf.settings_eq {settings : Settings} {notices : List Notice}
    (hcome : ComeOf lookup settings notices) :
    settings = (ofVariables lookup).1 := by
  have hsize := takes_defaultMaxKeys_iff.mp hcome.defaultMaxKeys
  have hcoding := takes_urlEncoding_iff.mp hcome.urlEncoding
  have hlimit := takes_maxPages_iff.mp hcome.maxPages
  cases settings
  cases hsize
  cases hcoding
  cases hlimit
  rfl

/-- Whatever the variables are, their page size passes the test of requests. -/
theorem ComeOf.pageSize {settings : Settings} {notices : List Notice}
    (hcome : ComeOf lookup settings notices) :
    1 ≤ settings.defaultMaxKeys ∧ settings.defaultMaxKeys ≤ 1000 := by
  have htakes := hcome.defaultMaxKeys
  -- a variable and a field are no indices to split on until they are generalized
  generalize lookup maxKeysVariable = value at htakes
  generalize settings.defaultMaxKeys = n at *
  cases htakes with
  | said hstands => exact hstands.2
  | unset => decide
  | unsaid => decide

section SpellOut

variable {settings : Settings} (hspell : SpellOut lookup settings)

include hspell

theorem SpellOut.takes_maxPages :
    Takes SaysPageLimit none (lookup maxPagesVariable) settings.maxPages := by
  have hpages := hspell.maxPages
  cases hlimit : settings.maxPages with
  | none =>
      rw [hlimit] at hpages
      rw [hpages]
      exact .unset
  | some n =>
      rw [hlimit] at hpages
      obtain ⟨s, hset, hspelled⟩ := hpages
      rw [hset]
      exact .said ⟨n, rfl, hspelled⟩

/-- What is spelled out can be read, so there is nothing to hear of. -/
theorem SpellOut.not_unread (notice : Notice) : ¬ Unread lookup notice := by
  intro hnotice
  cases hnotice with
  | maxKeys hset hunread =>
      obtain ⟨s, hkeys, hspelled⟩ := hspell.defaultMaxKeys
      obtain rfl := Option.some.inj (hkeys.symm.trans hset)
      exact hunread _ hspelled
  | urlEncoding hset hunread =>
      obtain ⟨s, hcoding, hspelled⟩ := hspell.urlEncoding
      obtain rfl := Option.some.inj (hcoding.symm.trans hset)
      exact hunread _ hspelled
  | maxPages hset hunread =>
      have hpages := hspell.maxPages
      cases hlimit : settings.maxPages with
      | none =>
          -- without a limit the variable is not set at all
          rw [hlimit, hset] at hpages
          cases hpages
      | some n =>
          rw [hlimit] at hpages
          obtain ⟨s, hlookup, hspelled⟩ := hpages
          obtain rfl := Option.some.inj (hlookup.symm.trans hset)
          exact hunread n hspelled

theorem SpellOut.comeOf (hsize : 1 ≤ settings.defaultMaxKeys ∧ settings.defaultMaxKeys ≤ 1000) :
    ComeOf lookup settings [] where
  defaultMaxKeys := by
    obtain ⟨s, hset, hspelled⟩ := hspell.defaultMaxKeys
    rw [hset]
    exact .said ⟨hspelled, hsize⟩
  urlEncoding := by
    obtain ⟨s, hset, hspelled⟩ := hspell.urlEncoding
    rw [hset]
    exact .said hspelled
  maxPages := hspell.takes_maxPages
  mem_notices notice := ⟨nofun, fun hnotice => absurd hnotice (hspell.not_unread notice)⟩
  nodup_notices := List.nodup_nil

end SpellOut

/-- Of any variables come the settings that they say, each from its own variable alone, and a notice
for each of them that is set and cannot be read. A request that leaves its page size to such
settings passes the test if its bucket's name does. Settings with a page size that passes the test
come, without a notice, of variables that spell them out. -/
theorem ofVariables_settled (lookup : String → Option String) :
    ComeOf lookup (ofVariables lookup).1 (ofVariables lookup).2 ∧
      (∀ settings notices, ComeOf lookup settings notices → settings = (ofVariables lookup).1) ∧
      (1 ≤ (ofVariables lookup).1.defaultMaxKeys ∧ (ofVariables lookup).1.defaultMaxKeys ≤ 1000) ∧
      (∀ r : Request, r.settings = (ofVariables lookup).1 → r.maxKeys = none →
        (r.validate = .ok () ↔ BucketName.check .strict r.bucket = .ok ())) ∧
      ∀ settings : Settings, 1 ≤ settings.defaultMaxKeys → settings.defaultMaxKeys ≤ 1000 →
        SpellOut lookup settings → ofVariables lookup = (settings, []) := by
  have hcome := comeOf_ofVariables lookup
  refine ⟨hcome, fun _ _ => ComeOf.settings_eq, hcome.pageSize, ?_, ?_⟩
  · intro r hsettings hnone
    have hpageSize : r.pageSize = (ofVariables lookup).1.defaultMaxKeys := by
      rw [Request.pageSize, hnone, hsettings]
      rfl
    rw [Request.validate_eq_ok_iff, hpageSize]
    exact and_iff_left hcome.pageSize
  · intro settings hleast hmost hspell
    have hspelled := hspell.comeOf ⟨hleast, hmost⟩
    have hsilent : (ofVariables lookup).2 = [] := by
      apply List.eq_nil_iff_forall_not_mem.mpr
      intro notice hnotice
      exact List.not_mem_nil ((hspelled.mem_notices notice).mpr (mem_notices_iff.mp hnotice))
    exact Prod.ext hspelled.settings_eq.symm hsilent

/-- Variables with blanks of several kinds, a sign and zeros. -/
def paddedSample (variableName : String) : Option String :=
  if variableName = maxKeysVariable then some "\u3000+00250\n"
  else if variableName = urlEncodingVariable then some "false\u00a0"
  else none

/-- The variables spell settings out, and a request with these settings passes the test. -/
theorem ofVariables_settled_paddedSample :
    SpellOut paddedSample ⟨250, false, none⟩ ∧ ofVariables paddedSample = (⟨250, false, none⟩, []) ∧
      BucketName.check .strict "my-bucket" = .ok () ∧
      ({ bucket := "my-bucket", settings := (ofVariables paddedSample).1 } : Request).validate =
        .ok () := by
  have hsize : Padded "+00250".toList "\u3000+00250\n".toList :=
    @Padded.intro "+00250".toList ['\u3000'] ['\n'] (List.forall_mem_singleton.mpr rfl)
      (List.forall_mem_singleton.mpr rfl)
  have hswitch : SpellsTruth "false\u00a0" false :=
    @Padded.intro "false".toList [] ['\u00a0'] (List.forall_mem_nil _)
      (List.forall_mem_singleton.mpr rfl)
  have hspell : SpellOut paddedSample ⟨250, false, none⟩ :=
    ⟨⟨_, rfl, _, .signed 2, hsize⟩, ⟨_, rfl, hswitch⟩, rfl⟩
  have hname : BucketName.check .strict "my-bucket" = .ok () := by decide
  obtain ⟨-, -, -, hvalid, hspelled⟩ := ofVariables_settled paddedSample
  have hcome : ofVariables paddedSample = (⟨250, false, none⟩, []) :=
    hspelled _ (by decide) (by decide) hspell
  refine ⟨hspell, hcome, hname, ?_⟩
  apply (hvalid _ _ _).mpr
  · exact hname
  · rfl
  · rfl

end VersionedBucket.Settings
