import VersionedBucket.Proofs.Walk.Completeness
import Mathlib.Algebra.Order.BigOperators.Group.List

/-! # Descents from folder to folder

Under a delimiter a walk shows the versions right below its prefix, and common prefixes for all that
lies deeper. Whoever walks each of these in turn, and what they lead to, comes to an end, and has
then seen every version that a walk without the delimiter shows, and has seen it once.
-/

namespace VersionedBucket

open Text Store

/-! ## One level -/

/-- What belongs to one of several groups is put together from the groups. -/
theorem filter_any_perm {α γ : Type} [DecidableEq γ] (group : α → Option γ) {names : List γ}
    (hnames : names.Nodup) (l : List α) :
    (l.filter fun x => names.any fun name => group x = some name).Perm
      (names.flatMap fun name => l.filter fun x => group x = some name) := by
  induction names with
  | nil => simp
  | cons name rest ih =>
      obtain ⟨hnot, hrest⟩ := List.nodup_cons.mp hnames
      have hsplit := List.filter_append_perm (fun x => decide (group x = some name))
        (l.filter fun x => (name :: rest).any fun name => group x = some name)
      have hfirst : (l.filter fun x => (name :: rest).any fun name => group x = some name).filter
          (fun x => decide (group x = some name)) = l.filter fun x => group x = some name := by
        rw [List.filter_filter]
        refine List.filter_congr fun x _ => ?_
        by_cases hx : group x = some name <;> simp [hx]
      have hother : (l.filter fun x => (name :: rest).any fun name => group x = some name).filter
          (fun x => !decide (group x = some name)) =
            l.filter fun x => rest.any fun name => group x = some name := by
        rw [List.filter_filter]
        refine List.filter_congr fun x _ => ?_
        by_cases hx : group x = some name
        · have hother (other : γ) (hmem : other ∈ rest) : name ≠ other := fun heq =>
            hnot (heq ▸ hmem)
          simpa [hx] using hother
        · simp [hx]
      rw [hfirst, hother] at hsplit
      rw [List.flatMap_cons]
      exact hsplit.symm.trans ((ih hrest).append_left _)

namespace Request

variable {q : Request} {b : Bucket}

/-- A common prefix is longer than the prefix. -/
theorem length_lt_groupOf {key common : String} (hgroup : q.groupOf key = some common) :
    q.start.toList.length < common.toList.length := by
  obtain ⟨delimiter, part, -, hempty, hpart, rfl⟩ := groupOf_eq_some_iff.mp hgroup
  have hlength := hpart.ending.length_le
  have hpos : 0 < delimiter.toList.length := by
    refine List.length_pos_iff.mpr fun hnil => hempty ?_
    exact String.toList_inj.mp hnil
  rw [String.toList_ofList, List.length_append]
  omega

theorem wants_of_startsWith_groupOf {key common other : String}
    (hgroup : q.groupOf key = some common) (hother : startsWith other common = true) :
    q.wants other = true := by
  obtain ⟨_, part, -, -, -, rfl⟩ := groupOf_eq_some_iff.mp hgroup
  rw [startsWith_iff, String.toList_ofList] at hother
  exact startsWith_iff.mpr ((List.prefix_append _ _).trans hother)

theorem mem_commons_items (hstart : q.keyMarker = none) {common : String} :
    common ∈ Item.commons (q.items b) ↔
      ∃ entry ∈ b, q.wants entry.1 = true ∧ q.groupOf entry.1 = some common := by
  rw [Item.mem_commons, common_mem_items hstart]

/-- The keys rolled up under a common prefix are all the keys that start with it. -/
theorem filter_groupOf {key common : String} (hgroup : q.groupOf key = some common) :
    (b.filter fun entry => q.wants entry.1).filter (fun entry => q.groupOf entry.1 = some common) =
      b.filter fun entry => startsWith entry.1 common := by
  rw [List.filter_filter]
  refine List.filter_congr fun entry _ => ?_
  rw [Bool.eq_iff_iff, Bool.and_eq_true, decide_eq_true_eq]
  constructor
  · intro hentry
    exact startsWith_groupOf hentry.2 hentry.1
  · intro hentry
    exact ⟨groupOf_of_startsWith hgroup hentry, wants_of_startsWith_groupOf hgroup hentry⟩

/-- What is rolled up is rolled up under a common prefix that is shown. -/
theorem filter_rolledUp (hstart : q.keyMarker = none) :
    (b.filter fun entry => q.wants entry.1).filter (fun entry => !(q.groupOf entry.1).isNone) =
      (b.filter fun entry => q.wants entry.1).filter fun entry =>
        (Item.commons (q.items b)).any fun common => q.groupOf entry.1 = some common := by
  refine List.filter_congr fun entry hentry => ?_
  obtain ⟨hentry, hwants⟩ := List.mem_filter.mp hentry
  cases hgroup : q.groupOf entry.1 with
  | none => simp
  | some common =>
      have hcommon := (mem_commons_items hstart).mpr ⟨entry, hentry, hwants, hgroup⟩
      simpa using hcommon

/-- The keys that are wanted are those that stand for themselves and those below
the common prefixes. -/
theorem filter_wants_perm {drawn : List String} (hb : b.WellFormed drawn)
    (hstart : q.keyMarker = none) :
    (b.filter fun entry => q.wants entry.1).Perm
      ((b.filter fun entry => q.wants entry.1 && (q.groupOf entry.1).isNone) ++
        (Item.commons (q.items b)).flatMap fun common => b.filter fun entry =>
          startsWith entry.1 common) := by
  have hself : (b.filter fun entry => q.wants entry.1).filter (fun entry =>
      (q.groupOf entry.1).isNone) =
      b.filter fun entry => q.wants entry.1 && (q.groupOf entry.1).isNone := by
    simp [List.filter_filter, Bool.and_comm]
  have hgroups := filter_any_perm (fun entry : String × List Version => q.groupOf entry.1)
    (Item.commons_nodup (q.items_pairwise hb)) (b.filter fun entry => q.wants entry.1)
  have hsplit :=
    List.filter_append_perm (fun entry : String × List Version => (q.groupOf entry.1).isNone)
    (b.filter fun entry => q.wants entry.1)
  rw [hself, filter_rolledUp hstart] at hsplit
  refine hsplit.symm.trans ((hgroups.trans ?_).append_left _)
  rw [List.flatMap_congr fun common hcommon => ?_]
  obtain ⟨entry, -, -, hgroup⟩ := (mem_commons_items hstart).mp hcommon
  exact filter_groupOf hgroup

end Request

theorem Version.ListedBefore.ne {drawn : List String} (hdistinct : drawn.Nodup) {v w : Version}
    (hbefore : ListedBefore drawn v w) : (v.key, v.versionId) ≠ (w.key, w.versionId) := by
  intro heq
  obtain ⟨hkey, hid⟩ := Prod.mk.inj heq
  rcases hbefore with hbefore | ⟨-, holder⟩
  · exact absurd (before_iff_lt.mp hbefore) (hkey ▸ lt_irrefl _)
  · rw [hid] at holder
    exact older_asymm hdistinct holder holder

/-! ## Walks to the end -/

namespace Course

variable {c : Course}

/-- Some turns bring pages, and after them nothing comes any more. -/
def Completes (c : Course) (count : Nat) : Prop :=
  (∀ n < count, ∃ p, (c.turn n).item = some (.ok p)) ∧ ∀ n, count ≤ n → (c.turn n).item = none

theorem Completes.unique {count other : Nat} (hcount : c.Completes count)
    (hother : c.Completes other) :
    count = other := by
  have hle {m n : Nat} (hm : c.Completes m) (hn : c.Completes n) : m ≤ n := by
    by_contra hlt
    obtain ⟨p, hitem⟩ := hm.1 n (Nat.lt_of_not_le hlt)
    rw [hn.2 n le_rfl] at hitem
    cases hitem
  exact Nat.le_antisymm (hle hcount hother) (hle hother hcount)

theorem Completes.of_isDone {count : Nat} (hpages : ∀ n < count, (c.page? n).isSome)
    (hdone : (c.reached count).1.isDone = true) : c.Completes count := by
  constructor
  · intro n hn
    obtain ⟨p, hp⟩ := Option.isSome_iff_exists.mp (hpages n hn)
    exact ⟨p, item_of_page? hp⟩
  · intro n hn
    have hlater : (c.reached n).1.isDone = true := by
      induction n, hn using Nat.le_induction with
      | base => exact hdone
      | succ n _ ih => exact (turn_of_isDone ih).2
    exact (turn_of_isDone hlater).1

/-- A walk over a store at rest brings pages that show the whole listing, and then nothing. -/
theorem exists_completes (hc : c.Admissible) (hquiet : ∀ n, c.writes n = []) :
    ∃ count, c.Completes count ∧ c.Traced count (c.request.items (c.bucket 0)) := by
  obtain ⟨last, items, hends⟩ := exists_ends hc hquiet
  have htraced := hends.traced hc (Nat.lt_succ_self last)
  refine ⟨last + 1, ⟨?_, fun n hn => hends.item_eq_none hn⟩, ?_⟩
  · intro n hn
    cases hends with
    | turn hrun hshows =>
        rcases Nat.lt_succ_iff_lt_or_eq.mp hn with hn | rfl
        · obtain ⟨_, _, _, _, p, -, hshows, -⟩ := hrun.earlier hn
          exact ⟨p, hshows.item⟩
        · exact ⟨_, hshows.item⟩
  · cases hends with
    | @turn before shown shownLast _ hrun hshows =>
        have hitems : before ++ shown = c.request.items (c.bucket 0) := by
          rw [← hrun.append_due hc hquiet, ← bucket_of_quiet hquiet last, hshows.due,
            List.append_nil]
        exact hitems ▸ htraced

end Course

/-! ## Descents -/

/-- Walks over a store at rest, each with a prefix of its own and otherwise with
the same request. -/
structure Descent where
  request : Request
  history : History
  /-- The page sizes given to the turns of each walk. -/
  sizes : Option String → Nat → Option UInt16

namespace Descent

variable {d : Descent}

/-- The walk below a prefix. -/
def course (d : Descent) (keyPrefix : Option String) : Course where
  request := { d.request with keyPrefix }
  history := d.history
  sizes := d.sizes keyPrefix
  writes := fun _ => []

/-- The walk without the delimiter. -/
def flat (d : Descent) (sizes : Nat → Option UInt16) : Course where
  request := { d.request with delimiter := none }
  history := d.history
  sizes := sizes
  writes := fun _ => []

/-- The versions that the first turns of the walk below a prefix show. -/
def shown (d : Descent) (keyPrefix : Option String) (count : Nat) : List Version :=
  ((d.course keyPrefix).pages count).flatMap (·.versions)

/-- The common prefixes that they show. -/
def deeper (d : Descent) (keyPrefix : Option String) (count : Nat) : List String :=
  ((d.course keyPrefix).pages count).flatMap (·.commonPrefixes)

/-- Walks to the end, below one prefix after the other: the common prefixes that a walk shows are
next. What is found are the versions that each walk shows. -/
inductive Visits (d : Descent) : List (Option String) → List (Option String × List Version) → Prop
  | done : d.Visits [] []
  | walk {keyPrefix : Option String} {agenda : List (Option String)} {count : Nat}
      {found : List (Option String × List Version)} (hwalk : (d.course keyPrefix).Completes count)
      (hdeeper : d.Visits ((d.deeper keyPrefix count).map some ++ agenda) found) :
      d.Visits (keyPrefix :: agenda) ((keyPrefix, d.shown keyPrefix count) :: found)

/-- The bucket that is walked over. -/
def bucket (d : Descent) : Bucket := (d.history.store.bucket? d.request.bucket).getD []

/-- All versions whose keys start with a prefix. -/
def below (d : Descent) (keyPrefix : Option String) : List Version :=
  (d.bucket.filter fun entry => startsWith entry.1 (keyPrefix.getD "")).flatMap fun entry =>
    (Version.flagged entry.2).map Version.normalize

/-- A walk shows the versions that stand for themselves, and with those below its common prefixes
they are all. -/
theorem exists_completes (hd : ∀ keyPrefix, (d.course keyPrefix).Admissible)
    (keyPrefix : Option String) :
    ∃ count, (d.course keyPrefix).Completes count ∧
      (d.below keyPrefix).Perm
        (d.shown keyPrefix count ++ (d.deeper keyPrefix count).flatMap fun common =>
          d.below (some common)) ∧
      ∀ common ∈ d.deeper keyPrefix count,
        (keyPrefix.getD "").toList.length < common.toList.length ∧
        ∃ entry ∈ d.bucket, startsWith entry.1 common = true := by
  have hstart := (hd keyPrefix).fromStart
  obtain ⟨count, hcompletes, htraced⟩ := Course.exists_completes (hd keyPrefix) fun _ => rfl
  refine ⟨count, hcompletes, ?_, ?_⟩
  · have hperm :=
      (Request.filter_wants_perm ((hd keyPrefix).wellFormed 0) hstart).flatMap_right fun entry =>
      (Version.flagged entry.2).map Version.normalize
    rw [List.flatMap_append, List.flatMap_assoc] at hperm
    rw [shown, deeper, htraced.versions, htraced.commonPrefixes, Request.versions_items hstart,
      List.map_flatMap]
    exact hperm
  · intro common hcommon
    rw [deeper, htraced.commonPrefixes, Request.mem_commons_items hstart] at hcommon
    obtain ⟨entry, hentry, hwants, hgroup⟩ := hcommon
    exact ⟨Request.length_lt_groupOf hgroup, entry, hentry,
      Request.startsWith_groupOf hwants hgroup⟩

/-- What is found below the prefixes of an agenda is all that lies below them. -/
theorem Visits.perm (hd : ∀ keyPrefix, (d.course keyPrefix).Admissible)
    {agenda : List (Option String)} {found : List (Option String × List Version)}
    (hvisits : d.Visits agenda found) :
    (found.flatMap Prod.snd).Perm (agenda.flatMap d.below) := by
  induction hvisits with
  | done => exact .nil
  | @walk keyPrefix agenda count found hwalk _ ih =>
      obtain ⟨count', hcount, hperm, -⟩ := exists_completes hd keyPrefix
      obtain rfl := hcount.unique hwalk
      rw [List.flatMap_append, List.flatMap_map] at ih
      rw [List.flatMap_cons, List.flatMap_cons]
      refine (ih.append_left _).trans ?_
      rw [← List.append_assoc]
      exact hperm.symm.append_right _

/-- An agenda can be worked off if each of its prefixes can, whatever comes next. -/
theorem exists_visits_append {prefixes agenda : List (Option String)}
    (hprefixes : ∀ keyPrefix ∈ prefixes, ∀ agenda, (∃ found, d.Visits agenda found) →
      ∃ found, d.Visits (keyPrefix :: agenda) found) (hagenda : ∃ found, d.Visits agenda found) :
    ∃ found, d.Visits (prefixes ++ agenda) found := by
  induction prefixes with
  | nil => exact hagenda
  | cons keyPrefix rest ih =>
      refine hprefixes keyPrefix List.mem_cons_self (rest ++ agenda) (ih ?_)
      exact fun keyPrefix hmem => hprefixes keyPrefix (List.mem_cons_of_mem _ hmem)

/-- Below a prefix the walks come to an end, because the prefixes get longer and stay
prefixes of keys. -/
theorem exists_visits_cons (hd : ∀ keyPrefix, (d.course keyPrefix).Admissible) {bound : Nat}
    (hbound : ∀ entry ∈ d.bucket, entry.1.toList.length ≤ bound) (keyPrefix : Option String)
    {agenda : List (Option String)} (hagenda : ∃ found, d.Visits agenda found) :
    ∃ found, d.Visits (keyPrefix :: agenda) found := by
  induction hroom : bound - (keyPrefix.getD "").toList.length using Nat.strong_induction_on
    generalizing keyPrefix agenda with
  | _ room ih =>
      obtain ⟨count, hcount, -, hlonger⟩ := exists_completes hd keyPrefix
      obtain ⟨found, hfound⟩ : ∃ found,
          d.Visits ((d.deeper keyPrefix count).map some ++ agenda) found := by
        refine exists_visits_append ?_ hagenda
        intro below hbelow agenda hagenda
        obtain ⟨common, hcommon, rfl⟩ := List.mem_map.mp hbelow
        obtain ⟨hlength, entry, hentry, hstarts⟩ := hlonger common hcommon
        have hshort := (startsWith_iff.mp hstarts).length_le.trans (hbound entry hentry)
        refine ih (bound - common.toList.length) ?_ (some common) hagenda rfl
        omega
      exact ⟨_, .walk hcount hfound⟩

/-- Walking below a prefix and then below each common prefix comes to an end, whatever the page
sizes. All these walks together show the versions that the walk without a delimiter shows, and no
version is shown twice. -/
theorem complete (hd : ∀ keyPrefix, (d.course keyPrefix).Admissible) {sizes : Nat → Option UInt16}
    (hflat : (d.flat sizes).Admissible) :
    ∃ count, (d.flat sizes).Completes count ∧ (∃ found, d.Visits [d.request.keyPrefix] found) ∧
      ∀ found, d.Visits [d.request.keyPrefix] found →
        (found.flatMap Prod.snd).Perm (((d.flat sizes).pages count).flatMap (·.versions)) ∧
        ((found.flatMap Prod.snd).map fun v => (v.key, v.versionId)).Nodup := by
  obtain ⟨count, hcount, htraced⟩ := Course.exists_completes hflat fun _ => rfl
  have hversions : ((d.flat sizes).pages count).flatMap (·.versions) =
      d.below d.request.keyPrefix := by
    rw [htraced.versions, Request.versions_items hflat.fromStart, List.map_flatMap]
    have hgroup (key : String) : (d.flat sizes).request.groupOf key = none := rfl
    simp only [hgroup, Option.isNone_none, Bool.and_true]
    rfl
  refine ⟨count, hcount, ?_, ?_⟩
  · have hbound : ∀ entry ∈ d.bucket,
        entry.1.toList.length ≤ (d.bucket.map fun entry => entry.1.toList.length).sum :=
      fun entry hentry => List.le_sum_of_mem (List.mem_map_of_mem hentry)
    exact exists_visits_cons hd hbound _ ⟨[], .done⟩
  · intro found hfound
    have hperm := hfound.perm hd
    rw [List.flatMap_singleton, ← hversions] at hperm
    refine ⟨hperm, (hperm.map _).nodup_iff.mpr ?_⟩
    rw [htraced.versions]
    refine List.pairwise_map.mpr ((Item.versions_pairwise htraced.ordered).imp ?_)
    exact fun hbefore => hbefore.ne (hflat.fresh count).distinct

/-- A descent over the sample store with a key that is a common prefix itself and a key two levels
down. Below `b/` the pages hold one version. -/
def sample : Descent where
  request := { bucket := "photos", delimiter := some "/" }
  history := History.sample ++ [.putObject none "photos" "b/" 0 ⟨"i7", .epoch, "e7"⟩,
    .putObject none "photos" "b/c/d" 9 ⟨"i8", .epoch, "e8"⟩]
  sizes keyPrefix _ := if keyPrefix = some "b/" then some 1 else none

theorem sample_admissible (request : Request) (hrequest : request = { sample.request with
      keyPrefix := request.keyPrefix, delimiter := request.delimiter })
    {sizes : Nat → Option UInt16}
    (hsizes : ∀ n, ∀ size ∈ sizes n, IsPageSize size) :
    (Course.mk request sample.history sizes fun _ => []).Admissible where
  bucket := by rw [hrequest]; exact (by decide : (sample.history.store.bucket? "photos").isSome)
  name := by rw [hrequest]; exact (by decide : BucketName.check .strict "photos" = .ok ())
  fromStart := by rw [hrequest]; rfl
  unlimited := by rw [hrequest]; rfl
  sizes := hsizes
  ownSize _ := by
    rw [hrequest]; exact ⟨(by decide : (1000 : UInt16) ≠ 0), (by decide : (1000 : UInt16) ≤ 1000)⟩
  fresh n := by
    have hlog : (Course.mk request sample.history sizes fun _ => []).log n = sample.history := by
      induction n with
      | zero => rfl
      | succ n ih => rw [Course.log, ih]; rfl
    rw [hlog]
    exact ⟨by decide, by decide⟩

theorem complete_sample : ∃ count, ∃ found : List (Option String × List Version),
    (sample.flat fun _ => some 3).Completes count ∧
      found.map (fun walk => (walk.1, walk.2.map (·.versionId))) =
        [(none, ["i5", "i2", "i6", "i1"]), (some "b/", ["i7", "i3", "i4"]), (some "b/c/", ["i8"])] ∧
      (found.flatMap Prod.snd).Perm
        (((sample.flat fun _ => some 3).pages count).flatMap (·.versions)) := by
  have hcourse (keyPrefix : Option String) : (sample.course keyPrefix).Admissible := by
    refine sample_admissible _ rfl fun n size hsize => ?_
    obtain ⟨-, heq⟩ := Option.ite_none_right_eq_some.mp hsize
    cases heq
    exact ⟨by decide, by decide⟩
  have hflat : (sample.flat fun _ => some 3).Admissible := by
    refine sample_admissible _ rfl fun n size hsize => ?_
    cases hsize
    exact ⟨by decide, by decide⟩
  obtain ⟨count, hcount, -, hfound⟩ := complete hcourse hflat
  -- these are the walks of the descent
  have hroot : (sample.course none).Completes 1 := .of_isDone (by decide) (by decide)
  have hfolder : (sample.course (some "b/")).Completes 4 := .of_isDone (by decide) (by decide)
  have hinner : (sample.course (some "b/c/")).Completes 1 := .of_isDone (by decide) (by decide)
  have hvisits : sample.Visits [none] _ := .walk hroot (.walk hfolder (.walk hinner .done))
  exact ⟨count, _, hcount, by decide, (hfound _ hvisits).1⟩

end Descent

end VersionedBucket
