import VersionedBucket.Proofs.Store.PageContent
import Mathlib.Data.List.Sort

/-! # Going on behind a version

A listing that starts from a version lists what the whole listing lists behind it. The place of the
version is known as long as the bucket holds it; once it has been removed, the rest of its key is
passed over, and the listing goes on with the next key. Writes in between change what is there, but
not where it stands.
-/

namespace VersionedBucket

open Text Store

variable {drawn : List String} {b : Bucket}

/-! ## Versions under a key -/

namespace Bucket

theorem mem_of_versions_ne_nil {key : String} (hne : b.versions key ≠ []) :
    (key, b.versions key) ∈ b := by
  induction b with
  | nil => exact absurd rfl hne
  | cons head rest ih =>
      obtain ⟨k, vs⟩ := head
      simp only [versions] at hne ⊢
      split at hne
      next heq => simp [heq]
      next hother => simpa [hother] using Or.inr (ih hne)

theorem WellFormed.versions_eq (hb : b.WellFormed drawn) {key : String} {vs : List Version}
    (hentry : (key, vs) ∈ b) : b.versions key = vs := by
  have hsorted := List.pairwise_map.mp hb.sorted
  clear hb
  induction b with
  | nil => simp at hentry
  | cons head rest ih =>
      obtain ⟨k, ws⟩ := head
      obtain ⟨hhead, hrest⟩ := List.pairwise_cons.mp hsorted
      rcases List.mem_cons.mp hentry with heq | hentry
      · cases heq
        simp [versions]
      · have hne : k ≠ key := ne_of_lt (hhead _ hentry)
        simpa [versions, hne] using ih hentry hrest

theorem WellFormed.holds_iff (hb : b.WellFormed drawn) {key versionId : String} :
    b.holds key versionId = true ↔ ∃ vs, (key, vs) ∈ b ∧ versionId ∈ vs.map (·.versionId) := by
  simp only [holds, List.any_eq_true, beq_iff_eq, List.mem_map]
  constructor
  · rintro ⟨v, hv, hid⟩
    exact ⟨_, mem_of_versions_ne_nil (List.ne_nil_of_mem hv), v, hv, hid⟩
  · rintro ⟨vs, hentry, v, hv, hid⟩
    exact ⟨v, by rwa [hb.versions_eq hentry], hid⟩

theorem WellFormed.mem_drawn (hb : b.WellFormed drawn) {key versionId : String}
    (hholds : b.holds key versionId = true) : versionId ∈ drawn := by
  obtain ⟨vs, hentry, hid⟩ := hb.holds_iff.mp hholds
  exact (hb.newestFirst _ hentry).subset (List.mem_reverse.mpr hid)

end Bucket

/-! ## Listings from the start -/

namespace Request

variable {q : Request}

theorem version_mem_items (hstart : q.keyMarker = none) {w : Version} :
    Item.version w ∈ q.items b ↔ ∃ entry ∈ b, q.wants entry.1 = true ∧ q.groupOf entry.1 = none ∧
      w ∈ Version.flagged entry.2 := by
  simp only [mem_items, reaches, hstart, Bool.and_true, version_mem_itemsOf, listed]

theorem common_mem_items (hstart : q.keyMarker = none) {text : String} :
    Item.common text ∈ q.items b ↔
      ∃ entry ∈ b, q.wants entry.1 = true ∧ q.groupOf entry.1 = some text := by
  simp only [mem_items, reaches, hstart, Bool.and_true, common_mem_itemsOf]

/-- A version that is held is listed unless its key is not wanted or rolled up. -/
theorem exists_version_mem_items (hb : b.WellFormed drawn) (hstart : q.keyMarker = none)
    {key versionId : String} (hwants : q.wants key = true) (hgroup : q.groupOf key = none)
    (hholds : b.holds key versionId = true) :
    ∃ w, Item.version w ∈ q.items b ∧ w.key = key ∧ w.versionId = versionId := by
  obtain ⟨vs, hentry, hid⟩ := hb.holds_iff.mp hholds
  rw [← Version.map_versionId_flagged] at hid
  obtain ⟨w, hw, hid⟩ := List.mem_map.mp hid
  exact ⟨w, (version_mem_items hstart).mpr ⟨_, hentry, hwants, hgroup, hw⟩,
    Version.key_of_mem_flagged (hb.filed _ hentry) hw, hid⟩

/-- A version that is listed has a key that is wanted and not rolled up, and it is held. -/
theorem of_version_mem_items (hb : b.WellFormed drawn) (hstart : q.keyMarker = none) {w : Version}
    (hw : Item.version w ∈ q.items b) :
    q.wants w.key = true ∧ q.groupOf w.key = none ∧ b.holds w.key w.versionId = true := by
  obtain ⟨⟨key, vs⟩, hentry, hwants, hgroup, hw⟩ := (version_mem_items hstart).mp hw
  obtain rfl := Version.key_of_mem_flagged (hb.filed _ hentry) hw
  refine ⟨hwants, hgroup, hb.holds_iff.mpr ⟨vs, hentry, ?_⟩⟩
  rw [← Version.map_versionId_flagged]
  exact List.mem_map_of_mem hw

/-! ## Listings from a version on -/

/-- The request for what comes behind a version. -/
def behind (q : Request) (v : Version) : Request := q.movedTo ⟨v.key, some v.versionId⟩

theorem reaches_behind {v : Version} {key : String} :
    (q.behind v).reaches key = true ↔ q.wants key = true ∧ v.key ≤ key := by
  simp [reaches, behind, movedTo, wants, start, not_before_iff_le]

/-- Behind a version of a key come the older ones, if the version is there. -/
theorem mem_tail_dropWhile_iff (hdistinct : drawn.Nodup) {vs : List Version}
    (horder : vs.Pairwise fun newer older => Older drawn older.versionId newer.versionId)
    {w : Version} {versionId : String} :
    w ∈ (vs.dropWhile fun v => v.versionId != versionId).tail ↔
      w ∈ vs ∧ versionId ∈ vs.map (·.versionId) ∧ Older drawn w.versionId versionId := by
  induction vs with
  | nil => simp
  | cons head rest ih =>
      obtain ⟨hhead, hrest⟩ := List.pairwise_cons.mp horder
      by_cases hid : head.versionId = versionId
      · subst hid
        simp only [bne_self_eq_false, Bool.false_eq_true, not_false_eq_true,
          List.dropWhile_cons_of_neg, List.tail_cons, List.mem_cons, List.map_cons, true_or,
          true_and]
        constructor
        · exact fun hw => ⟨Or.inr hw, hhead w hw⟩
        · rintro ⟨rfl | hw, holder⟩
          · exact absurd holder (older_asymm hdistinct holder)
          · exact hw
      · rw [List.dropWhile_cons_of_pos (by simpa using hid), ih hrest]
        simp only [List.mem_cons, List.map_cons, Ne.symm hid, false_or, or_and_right]
        refine (or_iff_right_of_imp ?_).symm
        rintro ⟨rfl, hmem, holder⟩
        obtain ⟨v, hv, rfl⟩ := List.mem_map.mp hmem
        exact absurd holder (older_asymm hdistinct (hhead v hv))

theorem mem_listed_behind (hdistinct : drawn.Nodup) (hb : b.WellFormed drawn) {v w : Version}
    {entry : String × List Version} (hentry : entry ∈ b) :
    w ∈ (q.behind v).listed entry.1 entry.2 ↔ w ∈ Version.flagged entry.2 ∧
      (entry.1 = v.key → Older drawn w.versionId v.versionId ∧
        b.holds v.key v.versionId = true) := by
  simp only [listed, behind, movedTo]
  split
  next heq =>
    have hholds : b.holds v.key v.versionId = true ↔ v.versionId ∈ entry.2.map (·.versionId) := by
      rw [hb.holds_iff, ← heq]
      constructor
      · rintro ⟨vs, hother, hid⟩
        rwa [← hb.versions_eq hentry, hb.versions_eq hother]
      · exact fun hid => ⟨entry.2, hentry, hid⟩
    have horder := Version.flagged_newestFirst (hb.newestFirst entry hentry)
    rw [mem_tail_dropWhile_iff hdistinct horder, Version.map_versionId_flagged, hholds]
    simp [heq, and_comm]
  next hne => simp [hne]

/-- The versions listed behind a version are those of later keys and, while it is held, of its own
key the older ones. -/
theorem version_mem_items_behind (hdistinct : drawn.Nodup) (hb : b.WellFormed drawn)
    (hstart : q.keyMarker = none) {v w : Version} :
    Item.version w ∈ (q.behind v).items b ↔ Item.version w ∈ q.items b ∧ (v.key < w.key ∨
      w.key = v.key ∧ Older drawn w.versionId v.versionId ∧ b.holds v.key v.versionId = true) := by
  have hgroupOf (key : String) : (q.behind v).groupOf key = q.groupOf key := rfl
  rw [mem_items]
  simp only [reaches_behind, version_mem_itemsOf, hgroupOf, version_mem_items hstart]
  constructor
  · rintro ⟨entry, hentry, ⟨hwants, hle⟩, hnone, hw⟩
    obtain ⟨hw, hcase⟩ := (mem_listed_behind hdistinct hb hentry).mp hw
    have hkey : w.key = entry.1 := Version.key_of_mem_flagged (hb.filed entry hentry) hw
    refine ⟨⟨entry, hentry, hwants, hnone, hw⟩, ?_⟩
    rcases hle.lt_or_eq with hlt | heq
    · exact Or.inl (hkey ▸ hlt)
    · exact Or.inr ⟨hkey.trans heq.symm, hcase heq.symm⟩
  · rintro ⟨⟨entry, hentry, hwants, hnone, hw⟩, hcase⟩
    have hkey : w.key = entry.1 := Version.key_of_mem_flagged (hb.filed entry hentry) hw
    refine ⟨entry, hentry, ⟨hwants, ?_⟩, hnone,
      (mem_listed_behind hdistinct hb hentry).mpr ⟨hw, ?_⟩⟩
    · rcases hcase with hlt | ⟨hsame, _⟩
      · exact hkey ▸ hlt.le
      · exact (hkey.symm.trans hsame).ge
    · intro heq
      rcases hcase with hlt | ⟨_, hold⟩
      · exact absurd (heq ▸ hkey) (ne_of_gt hlt)
      · exact hold

/-- The common prefixes listed behind a version are those of keys that are not in front of its key.
That some of its own key's versions are in front of it makes no difference. -/
theorem common_mem_items_behind {v : Version} {text : String} :
    Item.common text ∈ (q.behind v).items b ↔
      ∃ entry ∈ b, (q.wants entry.1 = true ∧ v.key ≤ entry.1) ∧ q.groupOf entry.1 = some text := by
  have hgroupOf (key : String) : (q.behind v).groupOf key = q.groupOf key := rfl
  simp only [mem_items, reaches_behind, common_mem_itemsOf, hgroupOf]

/-- What is listed behind a version is what the whole listing has under later keys and, while the
version is held, of its own key the versions older than it. -/
theorem mem_items_behind (hdistinct : drawn.Nodup) (hb : b.WellFormed drawn)
    (hstart : q.keyMarker = none) {v : Version} (hgroup : q.groupOf v.key = none) {item : Item} :
    item ∈ (q.behind v).items b ↔ item ∈ q.items b ∧ (v.key < item.key ∨ ∃ w, item = .version w ∧
      w.key = v.key ∧ Older drawn w.versionId v.versionId ∧ b.holds v.key v.versionId = true) := by
  cases item with
  | common text =>
      simp only [common_mem_items_behind, common_mem_items hstart, Item.key, reduceCtorEq,
        false_and, exists_false, or_false]
      constructor
      · rintro ⟨entry, hentry, ⟨hwants, hle⟩, hcommon⟩
        -- the version's own key is not rolled up, so the whole group stands behind it
        refine ⟨⟨entry, hentry, hwants, hcommon⟩, lt_groupOf hwants hcommon (by simp [hgroup]) ?_⟩
        refine lt_of_le_of_ne hle fun heq => ?_
        rw [← heq, hgroup] at hcommon
        cases hcommon
      · rintro ⟨⟨entry, hentry, hwants, hcommon⟩, hlt⟩
        exact ⟨entry, hentry, ⟨hwants, hlt.le.trans (groupOf_le hwants hcommon)⟩, hcommon⟩
  | version w =>
      simp [version_mem_items_behind hdistinct hb hstart, Item.key]

/-- Whatever is listed behind a version comes after it in the order of items. -/
theorem precedes_of_mem_items_behind (hdistinct : drawn.Nodup) (hb : b.WellFormed drawn)
    (hstart : q.keyMarker = none) {v : Version} (hgroup : q.groupOf v.key = none) {item : Item}
    (hitem : item ∈ (q.behind v).items b) : Item.Precedes drawn (.version v) item := by
  obtain ⟨hitem, hlt | ⟨w, rfl, hkey, holder, hholds⟩⟩ :=
    (mem_items_behind hdistinct hb hstart hgroup).mp hitem
  · exact .key hlt
  · refine .age hkey.symm holder ?_
    -- the bucket holds the version, perhaps with another flag, and there it stands in front of `w`
    have hwants := (of_version_mem_items hb hstart hitem).1
    obtain ⟨x, hx, hxkey, hxid⟩ := exists_version_mem_items hb hstart (hkey ▸ hwants) hgroup hholds
    have hne : Item.version x ≠ .version w := by
      rintro heq
      cases heq
      rw [hxid] at holder
      exact older_asymm hdistinct holder holder
    rcases Item.precedes_or_precedes (q.items_pairwise hb) hx hitem hne with hfirst | hfirst
    · cases hfirst with
      | key hlt => exact absurd (hxkey.trans hkey.symm) (ne_of_lt hlt)
      | age _ _ hlatest => exact hlatest
    · cases hfirst with
      | key hlt => exact absurd (hxkey.trans hkey.symm) (ne_of_gt hlt)
      | age _ holder' _ => exact absurd holder (older_asymm hdistinct (hxid ▸ holder'))

/-- The request for what comes behind the last version shown so far, if one has been shown. -/
def resumed (q : Request) : Option Version → Request
  | none => q
  | some v => q.behind v

theorem mem_items_of_mem_resumed (hdistinct : drawn.Nodup) (hb : b.WellFormed drawn)
    (hstart : q.keyMarker = none) {shownLast : Option Version}
    (hplace : ∀ v ∈ shownLast, q.groupOf v.key = none) {item : Item}
    (hitem : item ∈ (q.resumed shownLast).items b) : item ∈ q.items b := by
  cases shownLast with
  | none => exact hitem
  | some v => exact ((mem_items_behind hdistinct hb hstart (hplace v rfl)).mp hitem).1

/-- As long as nothing is written, the listing behind a listed version is the rest of
the whole listing. -/
theorem items_behind_eq (hdistinct : drawn.Nodup) (hb : b.WellFormed drawn)
    (hstart : q.keyMarker = none) {v : Version} {shown rest : List Item}
    (hitems : q.items b = shown ++ .version v :: rest) :
    (q.behind v).items b = rest := by
  have horder := q.items_pairwise hb
  rw [hitems] at horder
  obtain ⟨-, hsuffix, hfront⟩ := List.pairwise_append.mp horder
  obtain ⟨hv, hrest⟩ := List.pairwise_cons.mp hsuffix
  have hmem : Item.version v ∈ q.items b := by simp [hitems]
  obtain ⟨_, hgroup, hholds⟩ := of_version_mem_items hb hstart hmem
  have : Std.Irrefl (Item.Precedes drawn) := ⟨fun _ hself => hself.asymm hdistinct hself⟩
  have : Std.Antisymm (Item.Precedes drawn) :=
    ⟨fun _ _ hleft hright => absurd hright (hleft.asymm hdistinct)⟩
  -- both sides are in order, so it is enough that they have the same members
  refine ((q.behind v).items_pairwise hb).eq_of_mem_iff hrest fun item => ?_
  constructor
  · intro hitem
    have hafter := precedes_of_mem_items_behind hdistinct hb hstart hgroup hitem
    have hitem := ((mem_items_behind hdistinct hb hstart hgroup).mp hitem).1
    rw [hitems] at hitem
    rcases List.mem_append.mp hitem with hshown | hitem
    · exact absurd hafter ((hfront item hshown _ List.mem_cons_self).asymm hdistinct)
    · rcases List.mem_cons.mp hitem with rfl | hitem
      · exact absurd hafter (hafter.asymm hdistinct)
      · exact hitem
  · intro hitem
    refine (mem_items_behind hdistinct hb hstart hgroup).mpr ⟨by simp [hitems, hitem], ?_⟩
    cases hv item hitem with
    | key hlt => exact Or.inl hlt
    | age hkey holder _ => exact Or.inr ⟨_, rfl, hkey.symm, holder, hholds⟩

end Request

end VersionedBucket
