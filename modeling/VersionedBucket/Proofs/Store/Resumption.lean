import VersionedBucket.Proofs.Store.Cursor

/-! # What a marked listing shows

A listing that is marked with a version shows the part of the whole listing that lies behind it,
with one exception. If the key of the version is rolled up, its common prefix is shown again in any
case, even if the version is the last one under it: the key is rolled up before the marked version
is looked at.
-/

namespace VersionedBucket

open Text Store

variable {drawn : List String} {b : Bucket} {q : Request} {v : Version}

instance (drawn : List String) (v w : Version) : Decidable (v.ListedBefore drawn w) :=
  inferInstanceAs
    (Decidable (Before v.key w.key ∨ v.key = w.key ∧ [w.versionId, v.versionId].Sublist drawn))

theorem Version.listedBefore_iff {w : Version} : v.ListedBefore drawn w ↔
    v.key < w.key ∨ v.key = w.key ∧ Older drawn w.versionId v.versionId := by
  rw [ListedBefore, before_iff_lt]

theorem Version.ListedBefore.key_le {w : Version} (hbefore : v.ListedBefore drawn w) :
    v.key ≤ w.key := by
  rcases listedBefore_iff.mp hbefore with hlt | ⟨heq, _⟩
  · exact hlt.le
  · exact heq.le

namespace Request

/-- Of the versions of a bucket that are rolled up under a text, one lies behind the version `v`. -/
def RolledUpBehind (drawn : List String) (q : Request) (b : Bucket) (v : Version) (text : String) :
    Prop :=
  ∃ w ∈ b.flatMap Prod.snd, q.wants w.key = true ∧ q.groupOf w.key = some text ∧
    v.ListedBefore drawn w

instance (drawn : List String) (q : Request) (b : Bucket) (v : Version) (text : String) :
    Decidable (q.RolledUpBehind drawn b v text) := by
  unfold RolledUpBehind
  infer_instance

/-- The text is what the key of `v` itself is rolled up under. -/
def RollsUp (q : Request) (v : Version) (text : String) : Prop :=
  q.wants v.key = true ∧ q.groupOf v.key = some text

instance (q : Request) (v : Version) (text : String) : Decidable (q.RollsUp v text) :=
  inferInstanceAs (Decidable (q.wants v.key = true ∧ q.groupOf v.key = some text))

/-- A key that is rolled up and not in front of the key of a version either is that key or has a
version behind it. -/
theorem exists_entry_iff (hb : b.WellFormed drawn) (hholds : b.holds v.key v.versionId = true)
    {text : String} :
    (∃ entry ∈ b, (q.wants entry.1 = true ∧ v.key ≤ entry.1) ∧ q.groupOf entry.1 = some text) ↔
      q.RolledUpBehind drawn b v text ∨ q.RollsUp v text := by
  constructor
  · rintro ⟨entry, hentry, ⟨hwants, hle⟩, hgroup⟩
    rcases hle.lt_or_eq with hlt | heq
    · obtain ⟨w, hw⟩ := List.exists_mem_of_ne_nil _ (hb.filled entry hentry)
      have hkey : w.key = entry.1 := hb.filed entry hentry w hw
      refine Or.inl ⟨w, List.mem_flatMap.mpr ⟨entry, hentry, hw⟩, hkey ▸ hwants, hkey ▸ hgroup, ?_⟩
      exact Version.listedBefore_iff.mpr (Or.inl (hkey ▸ hlt))
    · exact Or.inr ⟨heq ▸ hwants, heq ▸ hgroup⟩
  · rintro (⟨w, hw, hwants, hgroup, hbefore⟩ | ⟨hwants, hgroup⟩)
    · obtain ⟨entry, hentry, hw⟩ := List.mem_flatMap.mp hw
      have hkey : w.key = entry.1 := hb.filed entry hentry w hw
      exact ⟨entry, hentry, ⟨hkey ▸ hwants, hkey ▸ hbefore.key_le⟩, hkey ▸ hgroup⟩
    · obtain ⟨vs, hentry, _⟩ := hb.holds_iff.mp hholds
      exact ⟨_, hentry, ⟨hwants, le_rfl⟩, hgroup⟩

end Request

/-- What of a whole listing is listed behind a version. -/
def Item.Behind (drawn : List String) (q : Request) (b : Bucket) (v : Version) : Item → Prop
  | version w => v.ListedBefore drawn w
  | common text => q.RolledUpBehind drawn b v text ∨ q.RollsUp v text

instance (drawn : List String) (q : Request) (b : Bucket) (v : Version) :
    DecidablePred (Item.Behind drawn q b v)
  | .version w => inferInstanceAs (Decidable (v.ListedBefore drawn w))
  | .common text => inferInstanceAs (Decidable (q.RolledUpBehind drawn b v text ∨ q.RollsUp v text))

namespace Request

theorem mem_items_behind_iff (hdistinct : drawn.Nodup) (hb : b.WellFormed drawn)
    (hstart : q.keyMarker = none) (hholds : b.holds v.key v.versionId = true) {item : Item} :
    item ∈ (q.behind v).items b ↔ item ∈ q.items b ∧ item.Behind drawn q b v := by
  cases item with
  | version w =>
      rw [version_mem_items_behind hdistinct hb hstart, Item.Behind, Version.listedBefore_iff]
      simp only [hholds, and_true, eq_comm]
  | common text =>
      rw [common_mem_items_behind, exists_entry_iff hb hholds, Item.Behind, iff_and_self]
      intro hbehind
      -- whatever puts the text behind the version is a key that is rolled up under it
      obtain ⟨entry, hentry, ⟨hwants, _⟩, hgroup⟩ := (exists_entry_iff hb hholds).mpr hbehind
      exact (common_mem_items hstart).mpr ⟨entry, hentry, hwants, hgroup⟩

/-- The listing behind a version that is held is a part of the whole listing, in the same order. -/
theorem items_behind_eq_filter (hdistinct : drawn.Nodup) (hb : b.WellFormed drawn)
    (hstart : q.keyMarker = none) (hholds : b.holds v.key v.versionId = true) :
    (q.behind v).items b = (q.items b).filter fun item => decide (item.Behind drawn q b v) := by
  have : Std.Irrefl (Item.Precedes drawn) := ⟨fun _ hself => hself.asymm hdistinct hself⟩
  have : Std.Antisymm (Item.Precedes drawn) :=
    ⟨fun _ _ hleft hright => absurd hright (hleft.asymm hdistinct)⟩
  refine ((q.behind v).items_pairwise hb).eq_of_mem_iff ((q.items_pairwise hb).filter _)
    fun item => ?_
  rw [mem_items_behind_iff hdistinct hb hstart hholds, List.mem_filter, decide_eq_true_iff]

end Request

namespace Item

/-- A choice among items of one kind can be made before or after the others are left out. -/
theorem filterMap_filter_eq {α : Type} {kind : Item → Option α} {accept : Item → Bool}
    {chosen : α → Bool} (hagree : ∀ item a, kind item = some a → accept item = chosen a)
    (items : List Item) :
    (items.filter accept).filterMap kind = (items.filterMap kind).filter chosen := by
  induction items with
  | nil => rfl
  | cons head rest ih =>
      cases hkind : kind head with
      | none => cases haccept : accept head <;> simp [hkind, haccept, ih]
      | some a =>
          have hchosen := hagree head a hkind
          cases haccept : accept head <;> simp [hkind, haccept, ← hchosen, ih]

theorem versions_filter (accept : Item → Bool) (items : List Item) :
    versions (items.filter accept) = (versions items).filter fun w => accept (version w) := by
  refine filterMap_filter_eq (fun item w hkind => ?_) items
  cases item with
  | common text => cases hkind
  | version w => exact congrArg (accept <| version ·) (Option.some.inj hkind)

theorem commons_filter (accept : Item → Bool) (items : List Item) :
    commons (items.filter accept) = (commons items).filter fun text => accept (common text) := by
  refine filterMap_filter_eq (fun item text hkind => ?_) items
  cases item with
  | common text => exact congrArg (accept <| common ·) (Option.some.inj hkind)
  | version w => cases hkind

end Item

/-- A page that is not truncated shows all items. -/
theorem Request.pageOf_of_complete {r : Request} {items : List Item}
    (hcomplete : (r.pageOf items).isTruncated = false) :
    (r.pageOf items).versions = (Item.versions items).map Version.normalize ∧
      (r.pageOf items).commonPrefixes = Item.commons items := by
  have hleft : Item.left r.pageSize.toNat items = [] := by
    simpa [pageOf] using hcomplete
  have hshown : Item.taken r.pageSize.toNat items = items := by
    have := Item.taken_append_left r.pageSize.toNat items
    rwa [hleft, List.append_nil] at this
  simp only [pageOf, hshown, and_self]

namespace Store

/-- The page behind a version that is held, if all fits on it: of the versions of the whole listing
those that lie behind the version, and of its common prefixes those under which a version behind it
is rolled up, and besides the one of its own key. So it is with a page of the whole listing that is
not truncated, too. -/
theorem list_behind (history : History) (hfresh : history.Fresh) (hstart : q.keyMarker = none)
    (hbucket : history.store.bucket? q.bucket = some b)
    (hholds : b.holds v.key v.versionId = true) :
    ∃ p, history.store.list (q.behind v) = .ok p ∧ (p.isTruncated = false →
      (p.versions = ((Item.versions (q.items b)).map Version.normalize).filter fun w =>
          decide (v.ListedBefore history.drawn w)) ∧
        (p.commonPrefixes = (Item.commons (q.items b)).filter fun text =>
          decide (q.RolledUpBehind history.drawn b v text ∨ q.RollsUp v text)) ∧
        ∀ whole, history.store.list q = .ok whole → whole.isTruncated = false →
          (p.versions = whole.versions.filter fun w => decide (v.ListedBefore history.drawn w)) ∧
            p.commonPrefixes = whole.commonPrefixes.filter fun text =>
              decide (q.RolledUpBehind history.drawn b v text ∨ q.RollsUp v text)) := by
  have hb := history.store_wellFormed.bucket hbucket
  have hitems := Request.items_behind_eq_filter hfresh.distinct hb hstart hholds
  refine ⟨_, list_of_wellFormed hbucket hb, fun hcomplete => ?_⟩
  obtain ⟨hversions, hcommons⟩ := Request.pageOf_of_complete hcomplete
  rw [hitems, Item.versions_filter] at hversions
  rw [hitems, Item.commons_filter] at hcommons
  have hversions : ((q.behind v).pageOf ((q.behind v).items b)).versions =
      ((Item.versions (q.items b)).map Version.normalize).filter fun w =>
        decide (v.ListedBefore history.drawn w) := by
    rw [hitems, hversions, List.filter_map]
    rfl
  have hcommons : ((q.behind v).pageOf ((q.behind v).items b)).commonPrefixes =
      (Item.commons (q.items b)).filter
      fun text => decide (q.RolledUpBehind history.drawn b v text ∨ q.RollsUp v text) := by
    rw [hitems, hcommons]
    rfl
  refine ⟨hversions, hcommons, fun whole hlist hwhole => ?_⟩
  rw [list_of_wellFormed hbucket hb] at hlist
  cases hlist
  obtain ⟨hwholeVersions, hwholeCommons⟩ := Request.pageOf_of_complete hwhole
  exact ⟨hwholeVersions ▸ hversions, hwholeCommons ▸ hcommons⟩

/-- Two keys of one group between two keys that stand for themselves. -/
def History.grouped : History :=
  [.makeBucket "photos", .putObject none "photos" "a" 1 ⟨"i1", .epoch, "e1"⟩,
    .putObject none "photos" "b/1" 2 ⟨"i2", .epoch, "e2"⟩,
    .putObject none "photos" "b/2" 3 ⟨"i3", .epoch, "e3"⟩,
    .putObject none "photos" "c" 4 ⟨"i4", .epoch, "e4"⟩,
    .putDeleteMarker none "photos" "c" ⟨"i5", .epoch, "e5"⟩]

/-- Behind the only version of `b/1` another key of its group follows; behind that of `c` that is
not the latest nothing does. -/
theorem list_behind_grouped :
    let q : Request := { bucket := "photos", delimiter := some "/" }
    let first : Version := { key := "b/1", versionId := "i2", lastModified := .epoch }
    let last : Version := { key := "c", versionId := "i4", lastModified := .epoch }
    (∃ p, History.grouped.store.list (q.behind first) = .ok p ∧ p.isTruncated = false ∧
      p.versions.map (·.versionId) = ["i5", "i4"] ∧ p.commonPrefixes = ["b/"]) ∧
    ∃ p, History.grouped.store.list (q.behind last) = .ok p ∧ p.isTruncated = false ∧
      p.versions = [] ∧ p.commonPrefixes = [] := by
  intro q first last
  obtain ⟨b, hbucket⟩ : ∃ b, History.grouped.store.bucket? q.bucket = some b :=
    Option.isSome_iff_exists.mp (by decide)
  obtain rfl : b = (History.grouped.store.bucket? "photos").getD [] := by rw [hbucket]; rfl
  have hfresh : History.grouped.Fresh := ⟨by decide, by decide⟩
  obtain ⟨p, hp, hbehindFirst⟩ :=
    list_behind History.grouped hfresh (v := first) rfl hbucket (by decide)
  obtain ⟨p', hp', hbehindLast⟩ :=
    list_behind History.grouped hfresh (v := last) rfl hbucket (by decide)
  have hcomplete (v : Version) (hv : v = first ∨ v = last) {p : Page}
      (hp : History.grouped.store.list (q.behind v) = .ok p) : p.isTruncated = false := by
    have hpage : (History.grouped.store.list (q.behind v)).toOption.map (·.isTruncated) =
        some false := by
      rcases hv with rfl | rfl <;> decide
    rw [hp] at hpage
    exact Option.some.inj hpage
  have hfirst := hcomplete first (.inl rfl) hp
  have hlast := hcomplete last (.inr rfl) hp'
  obtain ⟨hversions, hcommons, -⟩ := hbehindFirst hfirst
  obtain ⟨hversions', hcommons', -⟩ := hbehindLast hlast
  exact ⟨⟨p, hp, hfirst, hversions ▸ by decide, hcommons ▸ by decide⟩,
    ⟨p', hp', hlast, hversions' ▸ by decide, hcommons' ▸ by decide⟩⟩

/-- The common prefix of the only key there is is shown again behind the only version
of that key. -/
theorem list_behind_shows_own_group :
    ¬ ∀ (history : History) (q : Request) (b : Bucket) (v : Version) (p : Page), history.Fresh →
      q.keyMarker = none → history.store.bucket? q.bucket = some b →
      b.holds v.key v.versionId = true →
      history.store.list (q.behind v) = .ok p → p.isTruncated = false →
      ∀ text, text ∈ p.commonPrefixes ↔ q.RolledUpBehind history.drawn b v text := by
  intro hall
  have hagree := hall [.makeBucket "bucket", .putObject none "bucket" "a/x" 1 ⟨"v1", .epoch, "e1"⟩]
    { bucket := "bucket", delimiter := some "/" } _
    { key := "a/x", versionId := "v1", lastModified := .epoch } _
    ⟨by decide, by decide⟩ rfl rfl (by decide) rfl rfl "a/"
  exact absurd (hagree.mp (by decide)) (by decide)

end Store
end VersionedBucket
