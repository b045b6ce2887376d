import VersionedBucket.Proofs.BucketName.Address
import VersionedBucket.Request
import Mathlib.Data.List.Chain

/-! # The language of bucket names

What the tests of a name come to. Under the strict rules a name is made of labels with dots between
them; each label has small letters, digits and hyphens, and no hyphen at either end. Under the
relaxed rules only certain pairs of characters are excluded. Under both the name is from 3 to 63
bytes long and is no address.

The labels and the excluded pairs are brought together by putting a dot at both ends of a name: no
pair is excluded in what comes of it exactly if every label, with its own dots, has none.
-/

namespace VersionedBucket.BucketName

open Text

/-! ## Names -/

/-- Small letters and digits. -/
def IsSmall (c : Char) : Prop := 'a' ≤ c ∧ c ≤ 'z' ∨ '0' ≤ c ∧ c ≤ '9'

/-- Letters and digits. -/
def IsAlphanumeric (c : Char) : Prop := 'A' ≤ c ∧ c ≤ 'Z' ∨ IsSmall c

/-- A part of a name between dots. -/
structure IsLabel (label : List Char) : Prop where
  ne_nil : label ≠ []
  characters : ∀ c ∈ label, IsSmall c ∨ c = '-'
  head : '-' ∉ label.head?
  last : '-' ∉ label.getLast?

/-- A name under the strict rules. -/
structure IsStrict (name : String) : Prop where
  length : 3 ≤ (bytes name).length ∧ (bytes name).length ≤ 63
  labels : ∀ label ∈ name.toList.splitOn '.', IsLabel label
  not_address : ¬ IsAddress name.toList

/-- The pairs of characters that no name has. -/
def excludedPairs : List (List Char) := [['.', '.'], ['.', '-'], ['-', '.']]

/-- A name under the relaxed rules. -/
structure IsRelaxed (name : String) : Prop where
  length : 3 ≤ (bytes name).length ∧ (bytes name).length ≤ 63
  characters : ∀ c ∈ name.toList, IsAlphanumeric c ∨ c ∈ ['.', '-', '_', ':']
  head : ∃ c ∈ name.toList.head?, IsAlphanumeric c
  last : ∃ c ∈ name.toList.getLast?, IsAlphanumeric c
  pairs : ∀ pair ∈ excludedPairs, ¬ pair <:+: name.toList
  not_address : ¬ IsAddress name.toList

/-! ## Characters -/

theorem isSmallAlphanumeric_iff {c : Char} : isSmallAlphanumeric c = true ↔ IsSmall c := by
  show ((decide ('a' ≤ c) && decide (c ≤ 'z')) || (decide ('0' ≤ c) && decide (c ≤ '9'))) = true ↔ _
  simp only [Bool.or_eq_true, Bool.and_eq_true, decide_eq_true_eq]
  exact Iff.rfl

theorem isAlphanum_iff {c : Char} : c.isAlphanum = true ↔ IsAlphanumeric c := by
  have hsmall : (c.isLower || c.isDigit) = true ↔ IsSmall c := isSmallAlphanumeric_iff
  have hcapital : c.isUpper = true ↔ 'A' ≤ c ∧ c ≤ 'Z' := decide_eq_true_iff
  rw [IsAlphanumeric, ← hsmall, ← hcapital, ← Bool.or_eq_true, ← Bool.or_assoc]
  rfl

theorem isInner_strict_iff {c : Char} :
    isInner .strict c = true ↔ IsSmall c ∨ c = '.' ∨ c = '-' := by
  simp only [isInner, Bool.or_eq_true, beq_iff_eq, isSmallAlphanumeric_iff, or_assoc]

theorem isInner_relaxed_iff {c : Char} :
    isInner .relaxed c = true ↔ IsAlphanumeric c ∨ c ∈ ['.', '-', '_', ':'] := by
  simp only [isInner, Bool.or_eq_true, beq_iff_eq, isAlphanum_iff, or_assoc, List.mem_cons,
    List.not_mem_nil, or_false]

/-- Beyond the characters at the ends a name may have four others. -/
theorem isEdge_or_of_isInner {rules : Rules} {c : Char} (hinner : isInner rules c = true) :
    isEdge rules c = true ∨ c ∈ ['.', '-', '_', ':'] := by
  cases rules with
  | strict =>
      rcases isInner_strict_iff.mp hinner with hsmall | rfl | rfl
      · exact Or.inl (isSmallAlphanumeric_iff.mpr hsmall)
      · exact Or.inr (by decide)
      · exact Or.inr (by decide)
  | relaxed => exact (isInner_relaxed_iff.mp hinner).imp_left isAlphanum_iff.mpr

theorem isEdge_relaxed {rules : Rules} {c : Char} (hedge : isEdge rules c = true) :
    isEdge .relaxed c = true := by
  cases rules with
  | strict => exact isAlphanum_iff.mpr (Or.inr (isSmallAlphanumeric_iff.mp hedge))
  | relaxed => exact hedge

theorem isInner_relaxed {rules : Rules} {c : Char} (hinner : isInner rules c = true) :
    isInner .relaxed c = true :=
  (isEdge_or_of_isInner hinner).elim
    (fun hedge => isInner_relaxed_iff.mpr (Or.inl (isAlphanum_iff.mp (isEdge_relaxed hedge))))
    fun hother => isInner_relaxed_iff.mpr (Or.inr hother)

theorem isAlphanumeric_iff_toNat {c : Char} : IsAlphanumeric c ↔
    65 ≤ c.toNat ∧ c.toNat ≤ 90 ∨ 97 ≤ c.toNat ∧ c.toNat ≤ 122 ∨ 48 ≤ c.toNat ∧
      c.toNat ≤ 57 := Iff.rfl

theorem isBlank_of_isAlphanumeric {c : Char} (hc : IsAlphanumeric c) : isBlank c = false := by
  rw [isAlphanumeric_iff_toNat] at hc
  simp only [isBlank, Bool.or_eq_false_iff, Bool.and_eq_false_iff, decide_eq_false_iff_not,
    beq_eq_false_iff_ne]
  omega

theorem isBlank_of_isInner {rules : Rules} {c : Char} (hinner : isInner rules c = true) :
    isBlank c = false := by
  rcases isInner_relaxed_iff.mp (isInner_relaxed hinner) with hc | hother
  · exact isBlank_of_isAlphanumeric hc
  · simp only [List.mem_cons, List.not_mem_nil, or_false] at hother
    rcases hother with rfl | rfl | rfl | rfl <;> rfl

/-! ## What is tested -/

theorem fits_iff {rules : Rules} {cs : List Char} : fits rules cs = true ↔
    (∀ c ∈ cs, isInner rules c = true) ∧ (∃ c ∈ cs.head?, isEdge rules c = true) ∧
      ∃ c ∈ cs.getLast?, isEdge rules c = true := by
  simp only [fits, Bool.and_eq_true, List.all_eq_true, Option.any_eq_true, Option.mem_def,
    and_assoc]

/-- Characters that may be at the ends are neither hyphens nor underscores. -/
theorem hasBadEdge_of_fits {rules : Rules} {cs : List Char} (hfits : fits rules cs = true) :
    hasBadEdge cs = false := by
  obtain ⟨_, ⟨first, hfirst, hfirstEdge⟩, last, hlast, hlastEdge⟩ := fits_iff.mp hfits
  have hgood {c : Char} (hedge : isEdge rules c = true) : (c == '-' || c == '_') = false := by
    have hc := isAlphanum_iff.mp (isEdge_relaxed hedge)
    rw [Bool.or_eq_false_iff, beq_eq_false_iff_ne, beq_eq_false_iff_ne]
    constructor <;> rintro rfl <;> revert hc <;> rw [isAlphanumeric_iff_toNat] <;> decide
  simp only [hasBadEdge, Option.mem_def.mp hfirst, Option.mem_def.mp hlast, Option.any_some,
    hgood hfirstEdge, hgood hlastEdge, Bool.or_self]

theorem trimmed_of_fits {rules : Rules} {cs : List Char} (hfits : fits rules cs = true) :
    trimmed cs ≠ [] := by
  obtain ⟨hinner, ⟨c, hc, _⟩, _⟩ := fits_iff.mp hfits
  rw [trimmed_eq_self fun c hc => isBlank_of_isInner (hinner c hc)]
  rintro rfl
  cases hc

theorem hasPair_iff {first second : Char} {cs : List Char} :
    hasPair first second cs = true ↔ [first, second] <:+: cs := by
  induction cs with
  | nil => simp [hasPair]
  | cons a cs ih =>
      cases cs with
      | nil => simp [hasPair, List.infix_cons_iff]
      | cons b cs =>
          rw [hasPair, Bool.or_eq_true, ih, @List.infix_cons_iff _ _ a]
          simp only [Bool.and_eq_true, beq_iff_eq, List.cons_prefix_cons, List.nil_prefix, and_true]
          exact or_congr_left (and_congr eq_comm eq_comm)

theorem hasExcludedPair_iff {cs : List Char} :
    (hasPair '.' '.' cs || hasPair '.' '-' cs || hasPair '-' '.' cs) = true ↔
      ∃ pair ∈ excludedPairs, pair <:+: cs := by
  simp only [Bool.or_eq_true, hasPair_iff, excludedPairs, List.mem_cons, List.not_mem_nil, or_false,
    exists_eq_or_imp, exists_eq_left, or_assoc]

/-- Of all that is tested the length, the characters, the pairs and the address are enough. -/
theorem check_eq_ok_iff {rules : Rules} {name : String} : check rules name = .ok () ↔
    (3 ≤ (bytes name).length ∧ (bytes name).length ≤ 63) ∧ fits rules name.toList = true ∧
      (∀ pair ∈ excludedPairs, ¬ pair <:+: name.toList) ∧ ¬ IsAddress name.toList := by
  constructor
  · intro hcheck
    unfold check at hcheck
    dsimp only at hcheck
    split_ifs at hcheck with _ hshort hlong haddress hpairs _ hfits
    refine ⟨⟨Nat.le_of_not_lt hshort, Nat.le_of_not_lt hlong⟩, hfits, fun pair hpair hinside =>
      ?_, fun his => ?_⟩
    · exact hpairs (hasExcludedPair_iff.mpr ⟨pair, hpair, hinside⟩)
    · exact haddress (isAddress_iff.mpr his)
  · rintro ⟨⟨hshort, hlong⟩, hfits, hpairs, haddress⟩
    have hpairs' : ¬ (hasPair '.' '.' name.toList || hasPair '.' '-' name.toList ||
        hasPair '-' '.' name.toList) = true := fun hexcluded => by
      obtain ⟨pair, hpair, hinside⟩ := hasExcludedPair_iff.mp hexcluded
      exact hpairs pair hpair hinside
    have haddress' : ¬ isAddress name.toList = true := fun his => haddress (isAddress_iff.mp his)
    have htrimmed : ¬ (trimmed name.toList).isEmpty = true := fun hempty =>
      trimmed_of_fits hfits (List.isEmpty_iff.mp hempty)
    have hedge : ¬ hasBadEdge name.toList = true := by
      rw [hasBadEdge_of_fits hfits]
      exact Bool.false_ne_true
    simp only [check, if_neg htrimmed, if_neg (Nat.not_lt.mpr hshort),
      if_neg (Nat.not_lt.mpr hlong), if_neg haddress', if_neg hpairs', if_neg hedge, if_pos hfits]

/-! ## Labels -/

/-- One character may follow the other in a name. -/
def Joins (a b : Char) : Prop := [a, b] ∉ excludedPairs

instance (a b : Char) : Decidable (Joins a b) := by unfold Joins; infer_instance

/-- The name with a dot at both ends has no excluded pair. -/
def Joined (cs : List Char) : Prop := List.IsChain Joins ('.' :: cs ++ ['.'])

theorem isChain_joins_iff {cs : List Char} :
    List.IsChain Joins cs ↔ ∀ pair ∈ excludedPairs, ¬ pair <:+: cs := by
  rw [List.isChain_iff_forall_rel_of_append_cons_cons]
  constructor
  · rintro hjoins pair hpair ⟨before, after, rfl⟩
    obtain ⟨a, b, rfl⟩ : ∃ a b, pair = [a, b] := by
      simp only [excludedPairs, List.mem_cons, List.not_mem_nil, or_false] at hpair
      rcases hpair with rfl | rfl | rfl <;> exact ⟨_, _, rfl⟩
    exact hjoins (List.append_assoc ..) hpair
  · rintro hpairs a b before after rfl hpair
    exact hpairs _ hpair ⟨before, after, List.append_assoc ..⟩

theorem joins_dot_left {c : Char} : Joins '.' c ↔ c ≠ '.' ∧ c ≠ '-' := by
  simp [Joins, excludedPairs]

theorem joins_dot_right {c : Char} : Joins c '.' ↔ c ≠ '.' ∧ c ≠ '-' := by
  simp [Joins, excludedPairs]

theorem joined_iff {cs : List Char} : Joined cs ↔ List.IsChain Joins cs ∧
    (∃ c ∈ cs.head?, c ≠ '.' ∧ c ≠ '-') ∧ ∃ c ∈ cs.getLast?, c ≠ '.' ∧ c ≠ '-' := by
  rw [Joined, List.cons_append, List.isChain_cons, List.isChain_append]
  cases cs with
  | nil => simp [joins_dot_left]
  | cons a cs =>
      simp only [List.cons_append, List.head?_cons, Option.mem_def, Option.some.injEq,
        joins_dot_left, ne_eq, forall_eq', List.IsChain.singleton, List.getLast?_cons,
        joins_dot_right, true_and, exists_eq_left']
      tauto

theorem joined_append {first second : List Char} :
    Joined (first ++ '.' :: second) ↔ Joined first ∧ Joined second := by
  have hform : '.' :: (first ++ '.' :: second) ++ ['.'] =
    ('.' :: first) ++ '.' :: (second ++ ['.']) := by simp
  rw [Joined, hform, List.isChain_split]
  rfl

/-- Without a dot there is no excluded pair but at the ends. -/
theorem isLabel_iff {cs : List Char} (hdot : '.' ∉ cs) :
    (∀ c ∈ cs, isInner .strict c = true) ∧ Joined cs ↔ IsLabel cs := by
  simp only [isInner_strict_iff]
  constructor
  · rintro ⟨hinner, hjoined⟩
    obtain ⟨_, ⟨first, hfirst, hhead⟩, last, hlast, hend⟩ := joined_iff.mp hjoined
    refine ⟨?_, fun c hc => ?_, fun hmem => hhead.2 (Option.mem_unique hfirst hmem),
      fun hmem => hend.2 (Option.mem_unique hlast hmem)⟩
    · rintro rfl
      cases hfirst
    · exact (hinner c hc).imp_right fun hother => hother.resolve_left fun heq => hdot (heq ▸ hc)
  · rintro ⟨hne, hcharacters, hhead, hlast⟩
    refine ⟨fun c hc => (hcharacters c hc).imp_right Or.inr, joined_iff.mpr ⟨?_, ?_, ?_⟩⟩
    · rw [isChain_joins_iff]
      intro pair hpair hinside
      have hmem : '.' ∈ pair := by
        simp only [excludedPairs, List.mem_cons, List.not_mem_nil, or_false] at hpair
        rcases hpair with rfl | rfl | rfl <;> decide
      exact hdot (hinside.subset hmem)
    · obtain ⟨first, hfirst⟩ : ∃ c, c ∈ cs.head? := ⟨_, List.head?_eq_some_head hne⟩
      refine ⟨first, hfirst, ?_, ?_⟩
      · exact fun heq => hdot (heq ▸ List.mem_of_head? hfirst)
      · exact fun heq => hhead (heq ▸ hfirst)
    · obtain ⟨last, hend⟩ : ∃ c, c ∈ cs.getLast? := ⟨_, List.getLast?_eq_some_getLast hne⟩
      refine ⟨last, hend, ?_, ?_⟩
      · exact fun heq => hdot (heq ▸ List.mem_of_getLast? hend)
      · exact fun heq => hlast (heq ▸ hend)

theorem labels_iff {cs : List Char} :
    (∀ c ∈ cs, isInner .strict c = true) ∧ Joined cs ↔ ∀ label ∈ cs.splitOn '.', IsLabel label := by
  induction hlength : cs.length using Nat.strongRecOn generalizing cs with
  | ind length ih =>
      by_cases hdot : '.' ∈ cs
      · obtain ⟨first, second, rfl⟩ := List.append_of_mem hdot
        rw [List.length_append, List.length_cons] at hlength
        have hinner : isInner .strict '.' = true := rfl
        calc (∀ c ∈ first ++ '.' :: second, isInner .strict c = true) ∧
          Joined (first ++ '.' :: second)
          _ ↔ ((∀ c ∈ first, isInner .strict c = true) ∧ Joined first) ∧
                (∀ c ∈ second, isInner .strict c = true) ∧ Joined second := by
              rw [List.forall_mem_append, List.forall_mem_cons, joined_append]
              tauto
          _ ↔ (∀ label ∈ first.splitOn '.', IsLabel label) ∧ ∀ label ∈ second.splitOn '.',
            IsLabel label :=
              and_congr (@ih _ (by omega) first rfl) (@ih _ (by omega) second rfl)
          _ ↔ ∀ label ∈ (first ++ '.' :: second).splitOn '.', IsLabel label := by
              rw [List.splitOn_append_cons_self, List.forall_mem_append]
      · rw [isLabel_iff hdot, List.splitOn_eq_singleton hdot, List.forall_mem_singleton]

/-- A name fits the strict rules and has no excluded pair exactly if it is made of labels. -/
theorem fits_strict_iff {cs : List Char} :
    (fits .strict cs = true ∧ ∀ pair ∈ excludedPairs, ¬ pair <:+: cs) ↔
      ∀ label ∈ cs.splitOn '.', IsLabel label := by
  have hedge {c : Char} (hinner : isInner .strict c = true) : isEdge .strict c = true ↔
      c ≠ '.' ∧ c ≠ '-' := by
    constructor
    · intro hc
      constructor <;> rintro rfl <;> exact absurd hc (by decide)
    · rintro ⟨hdot, hhyphen⟩
      rcases isInner_strict_iff.mp hinner with hsmall | hother | hother
      · exact isSmallAlphanumeric_iff.mpr hsmall
      · exact absurd hother hdot
      · exact absurd hother hhyphen
  rw [← labels_iff, joined_iff, ← isChain_joins_iff, fits_iff, and_right_comm, and_assoc]
  refine and_congr_right fun hinner => ?_
  have hhead : (∃ c ∈ cs.head?, isEdge .strict c = true) ↔ ∃ c ∈ cs.head?, c ≠ '.' ∧ c ≠ '-' :=
    exists_congr fun c => and_congr_right fun hc => hedge (hinner c (List.mem_of_head? hc))
  have hlast : (∃ c ∈ cs.getLast?, isEdge .strict c = true) ↔
      ∃ c ∈ cs.getLast?, c ≠ '.' ∧ c ≠ '-' :=
    exists_congr fun c => and_congr_right fun hc => hedge (hinner c (List.mem_of_getLast? hc))
  rw [hhead, hlast]

/-! ## The two languages -/

theorem check_strict_iff {name : String} : check .strict name = .ok () ↔ IsStrict name := by
  rw [check_eq_ok_iff]
  constructor
  · rintro ⟨hlength, hfits, hpairs, haddress⟩
    exact ⟨hlength, fits_strict_iff.mp ⟨hfits, hpairs⟩, haddress⟩
  · rintro ⟨hlength, hlabels, haddress⟩
    obtain ⟨hfits, hpairs⟩ := fits_strict_iff.mpr hlabels
    exact ⟨hlength, hfits, hpairs, haddress⟩

theorem check_relaxed_iff {name : String} : check .relaxed name = .ok () ↔ IsRelaxed name := by
  rw [check_eq_ok_iff, fits_iff]
  simp only [isInner_relaxed_iff, isEdge, isAlphanum_iff]
  constructor
  · rintro ⟨hlength, ⟨hcharacters, hhead, hlast⟩, hpairs, haddress⟩
    exact ⟨hlength, hcharacters, hhead, hlast, hpairs, haddress⟩
  · rintro ⟨hlength, hcharacters, hhead, hlast, hpairs, haddress⟩
    exact ⟨hlength, ⟨hcharacters, hhead, hlast⟩, hpairs, haddress⟩

theorem fits_relaxed {rules : Rules} {cs : List Char} (hfits : fits rules cs = true) :
    fits .relaxed cs = true := by
  obtain ⟨hinner, ⟨first, hfirst, hhead⟩, last, hend, hlast⟩ := fits_iff.mp hfits
  exact fits_iff.mpr ⟨fun c hc => isInner_relaxed (hinner c hc),
    ⟨first, hfirst, isEdge_relaxed hhead⟩,
    last, hend, isEdge_relaxed hlast⟩

/-- The relaxed rules let through whatever any rules let through. -/
theorem check_relaxed_of_check {rules : Rules} {name : String}
    (hcheck : check rules name = .ok ()) :
    check .relaxed name = .ok () := by
  obtain ⟨hlength, hfits, hpairs, haddress⟩ := check_eq_ok_iff.mp hcheck
  exact check_eq_ok_iff.mpr ⟨hlength, fits_relaxed hfits, hpairs, haddress⟩

theorem exists_fault_of_check_ne {rules : Rules} {name : String}
    (hcheck : check rules name ≠ .ok ()) :
    ∃ fault, check rules name = .error fault := by
  cases hresult : check rules name with
  | error fault => exact ⟨fault, rfl⟩
  | ok done => exact absurd hresult hcheck

/-- The name of a request's bucket is looked at before anything else. -/
theorem validate_of_check_error {r : Request} {fault : Fault}
    (hcheck : check .strict r.bucket = .error fault) :
    r.validate = .error (.bucketName fault) := by
  rw [Request.validate, hcheck]

/-- Each set of rules accepts its own language, the strict one within the relaxed one. What is
rejected is reported as a fault of the bucket's name, also by a request that has other faults. -/
theorem check_decides_language :
    (∀ name, check .strict name = .ok () ↔ IsStrict name) ∧
      (∀ name, check .relaxed name = .ok () ↔ IsRelaxed name) ∧
      (∀ name, check .strict name = .ok () → check .relaxed name = .ok ()) ∧
      (∀ rules name, check rules name ≠ .ok () → ∃ fault, check rules name = .error fault) ∧
      ∀ r : Request, ¬ IsStrict r.bucket →
        ∃ fault, check .strict r.bucket = .error fault ∧
          r.validate = .error (.bucketName fault) := by
  refine ⟨fun _ => check_strict_iff, fun _ => check_relaxed_iff, fun _ => check_relaxed_of_check,
    fun _ _ => exists_fault_of_check_ne, fun r hname => ?_⟩
  obtain ⟨fault, hfault⟩ := exists_fault_of_check_ne (mt check_strict_iff.mp hname)
  exact ⟨fault, hfault, validate_of_check_error hfault⟩

/-- A name of each language, one that only the relaxed rules accept, and an address in a request
without a page. -/
theorem check_decides_language_samples :
    (IsStrict "my-bucket.v2" ∧ check .relaxed "my-bucket.v2" = .ok ()) ∧
      (IsRelaxed "My_bucket:v2" ∧ ¬ IsStrict "My_bucket:v2") ∧ ¬ IsStrict "192.168.0.1" ∧
      ∃ fault, ({ bucket := "192.168.0.1", maxKeys := some 0 } : Request).validate =
        .error (.bucketName fault) := by
  obtain ⟨hstrict, hrelaxed, hincluded, _, hreported⟩ := check_decides_language
  have haddress : ¬ IsStrict "192.168.0.1" := fun hname =>
    absurd ((hstrict _).mpr hname) (by decide)
  refine ⟨⟨(hstrict _).mp (by decide), hincluded _ (by decide)⟩,
    ⟨(hrelaxed _).mp (by decide),
      fun hname => absurd ((hstrict _).mpr hname) (by decide)⟩, haddress, ?_⟩
  obtain ⟨fault, _, hfault⟩ := hreported { bucket := "192.168.0.1", maxKeys := some 0 } haddress
  exact ⟨fault, hfault⟩

end VersionedBucket.BucketName
