import VersionedBucket.Store.Listing
import VersionedBucket.Proofs.Text.ByteOrder
import Mathlib.Data.List.Infix

/-! # Common prefixes

What a key is rolled up under is a matter of the key and the request alone: of the rest of the key
behind the prefix, the shortest part that ends with the delimiter. The keys rolled up under one
common prefix are exactly the keys that start with it, so they lie side by side in a bucket.
Delimiters are arbitrary texts and may overlap themselves.
-/

namespace VersionedBucket

open Text

/-! ## First occurrences -/

namespace Text

/-- The shortest initial part of a text that ends with a pattern. -/
structure EndsFirst (pattern cs part : List Char) : Prop where
  initial : part <+: cs
  ending : pattern <:+ part
  shortest : ∀ other, other <+: cs → pattern <:+ other → part.length ≤ other.length

theorem EndsFirst.unique {pattern cs first second : List Char} (hfirst : EndsFirst pattern cs first)
    (hsecond : EndsFirst pattern cs second) : first = second := by
  have hle := hfirst.shortest second hsecond.initial hsecond.ending
  have hge := hsecond.shortest first hfirst.initial hfirst.ending
  exact (List.prefix_of_prefix_length_le hfirst.initial hsecond.initial hle).eq_of_length
    (Nat.le_antisymm hle hge)

/-- What follows the part does not matter. -/
theorem EndsFirst.of_initial {pattern cs part longer : List Char}
    (hpart : EndsFirst pattern cs part) (hlonger : part <+: longer) :
    EndsFirst pattern longer part where
  initial := hlonger
  ending := hpart.ending
  shortest other hother hending := by
    by_contra hlt
    have hshort := List.prefix_of_prefix_length_le hother hlonger (by omega)
    exact hlt (hpart.shortest other (hshort.trans hpart.initial) hending)

theorem throughFirst_eq_some_iff {pattern cs part : List Char} :
    throughFirst pattern cs = some part ↔ EndsFirst pattern cs part := by
  -- either way there is at most one such part, so it is enough that the search finds one
  -- if it exists
  induction cs generalizing part with
  | nil =>
      simp only [throughFirst, List.isEmpty_iff]
      constructor
      · intro hfound
        split at hfound
        next hpattern =>
          obtain rfl : [] = part := Option.some.inj hfound
          exact ⟨List.prefix_rfl, by simp [hpattern], fun _ _ _ => Nat.zero_le _⟩
        · simp at hfound
      · intro hpart
        obtain rfl := List.prefix_nil.mp hpart.initial
        rw [if_pos (List.suffix_nil.mp hpart.ending)]
  | cons c rest ih =>
      simp only [throughFirst]
      split
      next hhere =>
        have hinitial : pattern <+: c :: rest := List.isPrefixOf_iff_prefix.mp hhere
        have hpattern : EndsFirst pattern (c :: rest) pattern :=
          ⟨hinitial, List.suffix_rfl, fun _ _ hending => hending.length_le⟩
        constructor
        · intro hfound
          exact Option.some.inj hfound ▸ hpattern
        · intro hpart
          rw [hpart.unique hpattern]
      next hhere =>
        have hnot : ¬ pattern <+: c :: rest := fun hinitial =>
          hhere (List.isPrefixOf_iff_prefix.mpr hinitial)
        -- an initial part that ends with the pattern has the character `c` in front of such a part
        have hcons (other : List Char) (hother : other <+: c :: rest)
            (hending : pattern <:+ other) :
            ∃ tail, other = c :: tail ∧ tail <+: rest ∧ pattern <:+ tail := by
          cases other with
          | nil => exact absurd (List.suffix_nil.mp hending ▸ List.nil_prefix) hnot
          | cons d tail =>
              obtain ⟨rfl, htail⟩ := List.cons_prefix_cons.mp hother
              rcases List.suffix_cons_iff.mp hending with heq | hending
              · exact absurd (heq ▸ hother) hnot
              · exact ⟨tail, rfl, htail, hending⟩
        rw [Option.map_eq_some_iff]
        constructor
        · rintro ⟨tail, hfound, rfl⟩
          have htail := ih.mp hfound
          refine ⟨List.cons_prefix_cons.mpr ⟨rfl, htail.initial⟩,
            htail.ending.trans (List.suffix_cons c tail), ?_⟩
          intro other hother hending
          obtain ⟨otherTail, rfl, hother, hending⟩ := hcons other hother hending
          exact Nat.succ_le_succ (htail.shortest otherTail hother hending)
        · intro hpart
          obtain ⟨tail, rfl, hinitial, hending⟩ := hcons part hpart.initial hpart.ending
          refine ⟨tail, ih.mpr ⟨hinitial, hending, ?_⟩, rfl⟩
          intro other hother hotherEnding
          have hle := hpart.shortest (c :: other) (List.cons_prefix_cons.mpr ⟨rfl, hother⟩)
            (hotherEnding.trans (List.suffix_cons c other))
          exact Nat.le_of_succ_le_succ hle

end Text

/-! ## Groups of keys -/

namespace Request

/-- What every wanted key starts with. -/
def start (r : Request) : String := r.keyPrefix.getD ""

/-- The key is one that the request asks for. -/
def wants (r : Request) (key : String) : Bool := startsWith key r.start

/-- The common prefix that stands for a wanted key: the request's prefix and the shortest part of
the rest of the key that ends with the delimiter. Without a delimiter, or with an empty one, every
key stands for itself. -/
def groupOf (r : Request) (key : String) : Option String :=
  match r.delimiter with
  | none => none
  | some delimiter =>
    if delimiter = "" then none
    else
      let rest := key.toList.drop r.start.toList.length
      (rest.inits.find? fun part => delimiter.toList.isSuffixOf part).map fun part =>
        String.ofList (r.start.toList ++ part)

theorem find?_inits_eq_some_iff {accept : List Char → Bool} {cs part : List Char} :
    cs.inits.find? accept = some part ↔ part <+: cs ∧ accept part = true ∧
      ∀ other, other <+: cs → accept other = true → part.length ≤ other.length := by
  induction cs generalizing accept part with
  | nil =>
      simp only [List.inits, List.find?_cons, List.find?_nil]
      cases hnil : accept [] with
      | true =>
          simp only [Option.some.injEq, List.prefix_nil]
          refine ⟨fun heq => heq ▸ ⟨rfl, hnil, by simp⟩, fun hpart => hpart.1.symm⟩
      | false =>
          simp only [reduceCtorEq, List.prefix_nil, false_iff]
          rintro ⟨rfl, haccept, _⟩
          simp [hnil] at haccept
  | cons c rest ih =>
      simp only [List.inits_cons, List.find?_cons]
      cases hnil : accept [] with
      | true =>
          simp only [Option.some.injEq]
          constructor
          · rintro rfl
            exact ⟨List.nil_prefix, hnil, by simp⟩
          · rintro ⟨_, _, hshortest⟩
            have hle := hshortest [] List.nil_prefix hnil
            exact (List.length_eq_zero_iff.mp (Nat.le_zero.mp hle)).symm
      | false =>
          simp only [List.find?_map, Option.map_eq_some_iff, ih, Function.comp_apply]
          constructor
          · rintro ⟨tail, ⟨hinitial, haccept, hshortest⟩, rfl⟩
            refine ⟨List.cons_prefix_cons.mpr ⟨rfl, hinitial⟩, haccept, ?_⟩
            intro other hother hotherAccept
            cases other with
            | nil => simp [hnil] at hotherAccept
            | cons d otherTail =>
                obtain ⟨rfl, htail⟩ := List.cons_prefix_cons.mp hother
                exact Nat.succ_le_succ (hshortest otherTail htail hotherAccept)
          · rintro ⟨hinitial, haccept, hshortest⟩
            cases part with
            | nil => simp [hnil] at haccept
            | cons d tail =>
                obtain ⟨rfl, htail⟩ := List.cons_prefix_cons.mp hinitial
                refine ⟨tail, ⟨htail, haccept, ?_⟩, rfl⟩
                intro other hother hotherAccept
                have hle :=
                  hshortest (d :: other) (List.cons_prefix_cons.mpr ⟨rfl, hother⟩) hotherAccept
                exact Nat.le_of_succ_le_succ hle

theorem groupOf_eq_some_iff {r : Request} {key common : String} :
    r.groupOf key = some common ↔ ∃ delimiter part, r.delimiter = some delimiter ∧ delimiter ≠ "" ∧
      EndsFirst delimiter.toList (key.toList.drop r.start.toList.length) part ∧
      common = String.ofList (r.start.toList ++ part) := by
  have hends (delimiter rest part : List Char) :
      rest.inits.find? (fun other => delimiter.isSuffixOf other) = some part ↔
        EndsFirst delimiter rest part := by
    rw [find?_inits_eq_some_iff]
    simp only [List.isSuffixOf_iff_suffix]
    exact ⟨fun hpart => ⟨hpart.1, hpart.2.1, hpart.2.2⟩,
      fun hpart => ⟨hpart.initial, hpart.ending, hpart.shortest⟩⟩
  unfold groupOf
  cases hdelimiter : r.delimiter with
  | none => simp
  | some delimiter =>
      by_cases hempty : delimiter = ""
      · simp [hempty]
      · simp only [if_neg hempty, Option.map_eq_some_iff, hends, Option.some.injEq]
        constructor
        · rintro ⟨part, hpart, rfl⟩
          exact ⟨delimiter, part, rfl, hempty, hpart, rfl⟩
        · rintro ⟨_, part, rfl, _, hpart, rfl⟩
          exact ⟨part, hpart, rfl⟩

/-- A key stands for itself exactly if no delimiter occurs behind the prefix. -/
theorem groupOf_eq_none_iff {r : Request} {key : String} : r.groupOf key = none ↔
    ∀ delimiter, r.delimiter = some delimiter → delimiter ≠ "" →
      ¬ delimiter.toList <:+: key.toList.drop r.start.toList.length := by
  unfold groupOf
  cases hdelimiter : r.delimiter with
  | none => simp
  | some delimiter =>
      by_cases hempty : delimiter = ""
      · simp [hempty]
      · simp only [if_neg hempty, Option.map_eq_none_iff, List.find?_eq_none, List.mem_inits,
          List.isSuffixOf_iff_suffix, Option.some.injEq, forall_eq', List.infix_iff_suffix_prefix]
        constructor
        · rintro hnot _ ⟨part, hending, hinitial⟩
          exact hnot part hinitial hending
        · intro hnot part hinitial hending
          exact hnot hempty ⟨part, hending, hinitial⟩

/-- The common prefix of a wanted key is a prefix of it. -/
theorem startsWith_groupOf {r : Request} {key common : String} (hwants : r.wants key = true)
    (hgroup : r.groupOf key = some common) : startsWith key common = true := by
  obtain ⟨delimiter, part, _, _, hpart, rfl⟩ := groupOf_eq_some_iff.mp hgroup
  obtain ⟨rest, hrest⟩ := startsWith_iff.mp hwants
  rw [startsWith_iff, String.toList_ofList, ← hrest, List.prefix_append_right_inj]
  have hinitial := hpart.initial
  rwa [← hrest, List.drop_left] at hinitial

/-- All keys that start with a common prefix are rolled up under it. -/
theorem groupOf_of_startsWith {r : Request} {key common other : String}
    (hgroup : r.groupOf key = some common) (hother : startsWith other common = true) :
    r.groupOf other = some common := by
  obtain ⟨delimiter, part, hdelimiter, hempty, hpart, rfl⟩ := groupOf_eq_some_iff.mp hgroup
  refine groupOf_eq_some_iff.mpr ⟨delimiter, part, hdelimiter, hempty, ?_, rfl⟩
  obtain ⟨rest, hrest⟩ := startsWith_iff.mp hother
  rw [String.toList_ofList, List.append_assoc] at hrest
  rw [← hrest, List.drop_left]
  exact hpart.of_initial (List.prefix_append _ _)

/-- The keys of a group lie side by side. -/
theorem groupOf_of_between {r : Request} {first middle last common : String}
    (hfirst : r.wants first = true) (hlast : r.wants last = true)
    (hfirstGroup : r.groupOf first = some common) (hlastGroup : r.groupOf last = some common)
    (hle : first ≤ middle) (hge : middle ≤ last) : r.groupOf middle = some common :=
  groupOf_of_startsWith hfirstGroup
    (startsWith_of_between (startsWith_groupOf hfirst hfirstGroup)
      (startsWith_groupOf hlast hlastGroup)
      hle hge)

/-- A key in front of a group's key, but not of the group, is in front of the common
prefix as well. -/
theorem lt_groupOf {r : Request} {key other common : String} (hother : r.wants other = true)
    (hgroup : r.groupOf other = some common) (hkey : r.groupOf key ≠ some common)
    (hlt : key < other) :
    key < common := by
  by_contra hge
  -- else the key would lie between the common prefix and a key of its group
  have hstarts := startsWith_of_between (startsWith_iff.mpr List.prefix_rfl)
    (startsWith_groupOf hother hgroup) (not_lt.mp hge) hlt.le
  exact hkey (groupOf_of_startsWith hgroup hstarts)

theorem groupOf_le {r : Request} {key common : String} (hwants : r.wants key = true)
    (hgroup : r.groupOf key = some common) : common ≤ key :=
  le_of_startsWith (startsWith_groupOf hwants hgroup)

end Request

/-- The search for the delimiter finds the common prefix that stands for a key. -/
theorem Store.rollUp?_eq_groupOf (r : Request) (key : String) : rollUp? r key = r.groupOf key := by
  ext common
  rw [Request.groupOf_eq_some_iff]
  simp only [rollUp?, delimiter, nonEmpty, Option.bind_eq_bind, Option.bind_eq_some_iff,
    Option.filter_eq_some_iff, throughFirst_eq_some_iff, Option.some.injEq, Request.start]
  constructor
  · rintro ⟨delimiter, ⟨hdelimiter, hempty⟩, part, hpart, rfl⟩
    exact ⟨delimiter, part, hdelimiter, by simpa using hempty, hpart, rfl⟩
  · rintro ⟨delimiter, part, hdelimiter, hempty, hpart, rfl⟩
    exact ⟨delimiter, ⟨hdelimiter, by simpa using hempty⟩, part, hpart, rfl⟩

end VersionedBucket
