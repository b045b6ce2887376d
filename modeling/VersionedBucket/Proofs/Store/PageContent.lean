import VersionedBucket.Proofs.Page.Normal
import VersionedBucket.Proofs.Store.Items

/-! # What a page holds

The reading of a bucket walks over keys, with the common prefixes seen so far in hand. What it comes
to is a cut through the sequence of items: the page holds the longest initial part that there is
room for, and it is truncated exactly if something of the sequence is left.
-/

namespace VersionedBucket

open Text Store

/-! ## Cutting a sequence -/

namespace Item

/-- The items that do not fit. -/
def left (room : Nat) (items : List Item) : List Item := items.drop (taken room items).length

theorem taken_isPrefix (room : Nat) (items : List Item) : taken room items <+: items := by
  induction items generalizing room with
  | nil => exact List.nil_prefix
  | cons head rest ih =>
      cases room with
      | zero => exact List.nil_prefix
      | succ room =>
          cases head with
          | version v => exact List.cons_prefix_cons.mpr ⟨rfl, ih room⟩
          | common text => exact List.cons_prefix_cons.mpr ⟨rfl, ih (room + 1)⟩

theorem taken_append_left (room : Nat) (items : List Item) :
    taken room items ++ left room items = items :=
  List.prefix_iff_eq_append.mp (taken_isPrefix room items)

/-- A truncated page is full. -/
theorem length_versions_taken {room : Nat} {items : List Item} (hleft : left room items ≠ []) :
    (versions (taken room items)).length = room := by
  induction items generalizing room with
  | nil => simp [left] at hleft
  | cons head rest ih =>
      cases room with
      | zero => rfl
      | succ room =>
          cases head with
          | version v => exact congrArg Nat.succ (ih hleft)
          | common text => exact ih hleft

/-- What is shown on a truncated page ends with a version, since only a version can have used
up the room. -/
theorem exists_taken_eq_append {room : Nat} {items : List Item} (hleft : left room items ≠ [])
    (hroom : 0 < room) : ∃ front v, taken room items = front ++ [version v] := by
  induction items generalizing room with
  | nil => simp [left] at hleft
  | cons head rest ih =>
      obtain ⟨room, rfl⟩ := Nat.exists_eq_succ_of_ne_zero hroom.ne'
      cases head with
      | version v =>
          rcases Nat.eq_zero_or_pos room with rfl | hroom
          · refine ⟨[], v, ?_⟩
            cases rest <;> rfl
          · obtain ⟨front, w, hfront⟩ := ih hleft hroom
            exact ⟨version v :: front, w, congrArg (version v :: ·) hfront⟩
      | common text =>
          obtain ⟨front, w, hfront⟩ := ih hleft hroom
          exact ⟨common text :: front, w, congrArg (common text :: ·) hfront⟩

theorem taken_ne_nil {room : Nat} {items : List Item} (hitems : items ≠ []) (hroom : 0 < room) :
    taken room items ≠ [] := by
  obtain ⟨room, rfl⟩ := Nat.exists_eq_succ_of_ne_zero hroom.ne'
  cases items with
  | nil => exact absurd rfl hitems
  | cons head rest => cases head <;> simp [taken]

theorem versions_append (first second : List Item) :
    versions (first ++ second) = versions first ++ versions second :=
  List.filterMap_append

theorem commons_append (first second : List Item) :
    commons (first ++ second) = commons first ++ commons second :=
  List.filterMap_append

theorem versions_map_version (vs : List Version) : versions (vs.map version) = vs := by
  simp [versions, version?, List.filterMap_map, Function.comp_def]

theorem mem_versions {items : List Item} {v : Version} :
    v ∈ versions items ↔ version v ∈ items := by
  simp only [versions, List.mem_filterMap]
  constructor
  · rintro ⟨item, hitem, hversion⟩
    cases item with
    | version w => exact Option.some.inj hversion ▸ hitem
    | common text => cases hversion
  · exact fun hv => ⟨version v, hv, rfl⟩

theorem mem_commons {items : List Item} {text : String} :
    text ∈ commons items ↔ common text ∈ items := by
  simp only [commons, List.mem_filterMap]
  constructor
  · rintro ⟨item, hitem, hcommon⟩
    cases item with
    | version w => cases hcommon
    | common other => exact Option.some.inj hcommon ▸ hitem
  · exact fun htext => ⟨common text, htext, rfl⟩

/-- What a cut through a sequence of items shows. -/
def reading (room : Nat) (items : List Item) : Reading where
  versions := versions (taken room items)
  commonPrefixes := commons (taken room items)
  isTruncated := !(left room items).isEmpty

theorem reading_nil (room : Nat) : reading room [] = {} := by
  cases room <;> rfl

/-- The versions of a key fit as a whole or are cut. -/
theorem reading_versions (room : Nat) (vs : List Version) (rest : List Item) :
    reading room (vs.map version ++ rest) =
      if room < vs.length then { versions := vs.take room, isTruncated := true }
      else
        { reading (room - vs.length) rest with
          versions := vs ++ (reading (room - vs.length) rest).versions } := by
  induction vs generalizing room with
  | nil => simp
  | cons v vs ih =>
      cases room with
      | zero => simp [reading, taken, left, versions, commons]
      | succ room =>
          have hstep : reading (room + 1) ((v :: vs).map version ++ rest) =
              { reading room (vs.map version ++ rest) with
                versions := v :: (reading room (vs.map version ++ rest)).versions } := rfl
          rw [hstep, ih]
          by_cases hroom : room < vs.length
          · simp [hroom]
          · simp [hroom]

end Item

/-! ## Reading keys -/

namespace Item

/-- The items without the common prefixes in a list. -/
def unseen (seen : List String) (items : List Item) : List Item :=
  items.filter fun item => item.common?.all (· ∉ seen)

theorem unseen_once_common (seen : List String) (text : String) (rest : List Item) :
    unseen seen (once (common text :: rest)) =
      if text ∈ seen then unseen seen (once rest)
      else common text :: unseen (text :: seen) (once rest) := by
  have hfilter (item : Item) :
      (item.common?.all (· ∉ seen) && decide (item ≠ common text)) =
        item.common?.all (· ∉ text :: seen) := by
    cases item with
    | version v => simp [common?]
    | common other =>
        by_cases hother : other = text <;> simp [common?, hother]
  split
  next hseen =>
    simp only [unseen, once]
    rw [List.filter_cons_of_neg (by simpa [common?] using hseen), List.filter_filter]
    refine List.filter_congr fun item _ => ?_
    cases item with
    | version v => simp [common?]
    | common other =>
        by_cases hother : other = text
        · simp [common?, hother, hseen]
        · simp [common?, hother]
  next hseen =>
    simp only [unseen, once]
    rw [List.filter_cons_of_pos (by simpa [common?] using hseen), List.filter_filter]
    simp only [hfilter]

theorem unseen_once_versions (seen : List String) (vs : List Version) (rest : List Item) :
    unseen seen (once (vs.map version ++ rest)) = vs.map version ++ unseen seen (once rest) := by
  induction vs with
  | nil => rfl
  | cons v vs ih => simpa [unseen, once, common?] using ih

end Item

namespace Store

theorem marked_eq_flagged (newestFirst : List Version) :
    marked newestFirst = Version.flagged newestFirst := by
  cases newestFirst with
  | nil => rfl
  | cons newest older => rw [Version.flagged_cons, marked]

theorem after_eq_tail_dropWhile (versionId : String) (vs : List Version) :
    after versionId vs = (vs.dropWhile fun v => v.versionId != versionId).tail := by
  induction vs with
  | nil => rfl
  | cons v rest ih =>
      by_cases hid : v.versionId = versionId
      · simp [after, hid]
      · simp [after, hid, ih]

/-- The reading passes over the marked key if no version of it is marked. -/
def passes (r : Request) (key : String) : Bool := !(isMarked r key && r.versionIdMarker.isNone)

theorem due_eq_listed {r : Request} {key : String} (hpasses : passes r key = true)
    (versions : List Version) : due r key versions = r.listed key versions := by
  unfold due isMarked Request.listed
  unfold passes isMarked at hpasses
  cases hmarker : r.keyMarker with
  | none => simp [marked_eq_flagged]
  | some marker =>
      cases hid : r.versionIdMarker with
      | none =>
          have hne : marker ≠ key := by simpa [hmarker, hid] using hpasses
          simp [hne, marked_eq_flagged]
      | some versionId =>
          by_cases heq : key = marker
          · simp [heq, marked_eq_flagged, after_eq_tail_dropWhile]
          · simp [heq, Ne.symm heq, marked_eq_flagged]

/-- Reading keys with the common prefixes seen so far cuts the sequence of the items that are
not among these. -/
theorem read_eq_reading (r : Request) (room : Nat) (seen : List String) (bs : Bucket) :
    read r room seen bs = Item.reading room
      (Item.unseen seen
        (Item.once ((bs.filter fun entry => passes r entry.1).flatMap r.itemsOf))) := by
  induction bs generalizing room seen with
  | nil => exact (Item.reading_nil room).symm
  | cons entry rest ih =>
      obtain ⟨key, versions⟩ := entry
      simp only [read]
      split
      next hskip => rw [ih, List.filter_cons_of_neg (by simp [passes, hskip])]
      next hskip =>
        have hpasses : passes r key = true := by simp only [passes, hskip, Bool.not_false]
        rw [List.filter_cons_of_pos (by simpa using hpasses), List.flatMap_cons, rollUp?_eq_groupOf]
        split
        next common hgroup =>
          have hitems : r.itemsOf (key, versions) = [.common common] := by
            simp [Request.itemsOf, hgroup]
          rw [hitems, List.singleton_append, Item.unseen_once_common]
          split
          · exact ih room seen
          · split
            next hroom => rw [hroom]; rfl
            next hroom =>
              obtain ⟨room, rfl⟩ := Nat.exists_eq_succ_of_ne_zero hroom
              rw [ih]
              rfl
        next hgroup =>
          have hitems : r.itemsOf (key, versions) = (r.listed key versions).map .version := by
            simp [Request.itemsOf, hgroup]
          rw [hitems, Item.unseen_once_versions, Item.reading_versions, due_eq_listed hpasses]
          simp only [ih]

/-! ## The keys that are read -/

theorem takeWhile_eq_filter {α : Type} {accept : α → Bool} {l : List α}
    (hinitial : l.Pairwise fun first second => accept second = true → accept first = true) :
    l.takeWhile accept = l.filter accept := by
  induction l with
  | nil => rfl
  | cons head rest ih =>
      obtain ⟨hhead, hrest⟩ := List.pairwise_cons.mp hinitial
      by_cases haccept : accept head = true
      · rw [List.takeWhile_cons_of_pos haccept, List.filter_cons_of_pos haccept, ih hrest]
      · rw [List.takeWhile_cons_of_neg haccept, List.filter_eq_nil_iff.mpr]
        intro item hitem
        rcases List.mem_cons.mp hitem with rfl | hitem
        · exact haccept
        · exact fun hlater => haccept (hhead item hitem hlater)

theorem dropWhile_eq_filter {α : Type} {accept : α → Bool} {l : List α}
    (hinitial : l.Pairwise fun first second => accept second = true → accept first = true) :
    l.dropWhile accept = l.filter fun item => !accept item := by
  induction l with
  | nil => rfl
  | cons head rest ih =>
      obtain ⟨hhead, hrest⟩ := List.pairwise_cons.mp hinitial
      by_cases haccept : accept head = true
      · rw [List.dropWhile_cons_of_pos haccept, List.filter_cons_of_neg (by simpa using haccept),
          ih hrest]
      · rw [List.dropWhile_cons_of_neg haccept, List.filter_eq_self.mpr]
        intro item hitem
        rcases List.mem_cons.mp hitem with rfl | hitem
        · simpa using haccept
        · simpa using fun hlater => haccept (hhead item hitem hlater)

theorem start_le_firstKey (r : Request) : r.start ≤ firstKey r := by
  unfold firstKey Request.start
  split
  · dsimp only
    split
    next hbefore => exact (before_iff_lt.mp hbefore).le
    · exact le_rfl
  · exact le_rfl

/-- A key that starts with the prefix is not in front of the first key that is looked at if it is
not in front of the marker. -/
theorem firstKey_le_iff {r : Request} {key : String} (hwants : r.wants key = true) :
    firstKey r ≤ key ↔ ∀ marker ∈ r.keyMarker, marker ≤ key := by
  have hstart : r.keyPrefix.getD "" ≤ key := le_of_startsWith hwants
  unfold firstKey
  cases r.keyMarker with
  | none => simpa using hstart
  | some marker =>
      simp only [Option.mem_def, Option.some.injEq, forall_eq']
      split
      · rfl
      next hbefore => exact ⟨fun _ => (not_before_iff_le.mp hbefore).trans hstart, fun _ => hstart⟩

theorem reaches_iff {r : Request} {key : String} : r.reaches key = true ↔
    r.wants key = true ∧ (∀ marker ∈ r.keyMarker, marker ≤ key) ∧ passes r key = true := by
  unfold Request.reaches passes isMarked
  cases r.keyMarker with
  | none => simp
  | some marker => cases r.versionIdMarker <;> simp [not_before_iff_le, @eq_comm _ key marker]

/-- The two cuts that the reading makes into the keys leave the keys that the request reaches. -/
theorem filter_range_eq (r : Request) {b : Bucket} (hsorted : (b.map Prod.fst).Pairwise (· < ·)) :
    (range r b).filter (fun entry => passes r entry.1) =
      b.filter fun entry => r.reaches entry.1 := by
  have hpairs := List.pairwise_map.mp hsorted
  have hlow : (b.dropWhile fun entry => decide (Before entry.1 (firstKey r))) =
      b.filter fun entry => !decide (Before entry.1 (firstKey r)) := by
    refine dropWhile_eq_filter (hpairs.imp fun hlt hbefore => ?_)
    simp only [decide_eq_true_eq, before_iff_lt] at hbefore ⊢
    exact hlt.trans hbefore
  have hhigh : range r b =
      (b.filter fun entry => !decide (Before entry.1 (firstKey r))).filter fun entry =>
        r.wants entry.1 := by
    unfold range
    rw [hlow]
    -- behind the first key the prefix is an initial property, because the first key is
    -- behind the prefix
    refine takeWhile_eq_filter
      ((hpairs.filter _).imp_of_mem fun {first second} hfirst _ hlt hwants => ?_)
    have hge := (List.mem_filter.mp hfirst).2
    simp only [Bool.not_eq_true', decide_eq_false_iff_not, not_before_iff_le] at hge
    exact startsWith_of_between (startsWith_iff.mpr List.prefix_rfl) hwants
      ((start_le_firstKey r).trans hge) hlt.le
  rw [hhigh, List.filter_filter, List.filter_filter]
  refine List.filter_congr fun entry _ => Bool.eq_iff_iff.mpr ?_
  simp only [Bool.and_eq_true, Bool.not_eq_true', decide_eq_false_iff_not, not_before_iff_le,
    reaches_iff]
  constructor
  · rintro ⟨⟨hpasses, hwants⟩, hfirst⟩
    exact ⟨hwants, (firstKey_le_iff hwants).mp hfirst, hpasses⟩
  · rintro ⟨hwants, hmarker, hpasses⟩
    exact ⟨⟨hpasses, hwants⟩, (firstKey_le_iff hwants).mpr hmarker⟩

/-- The reading of a bucket cuts the sequence of its items. -/
theorem read_range (r : Request) (room : Nat) {b : Bucket}
    (hsorted : (b.map Prod.fst).Pairwise (· < ·)) :
    read r room [] (range r b) = Item.reading room (r.items b) := by
  rw [read_eq_reading, filter_range_eq r hsorted]
  congr 1
  exact List.filter_eq_self.mpr fun item _ => by simp

end Store

/-! ## The page -/

namespace Request

/-- The page on which a request shows a sequence of items. It is truncated if something is left, and
then its last version is where the listing goes on. -/
def pageOf (r : Request) (items : List Item) : Page :=
  let shown := Item.taken r.pageSize.toNat items
  let isTruncated := !(Item.left r.pageSize.toNat items).isEmpty
  let last := if isTruncated then (Item.versions shown).getLast? else none
  { bucket := r.bucket
    versions := (Item.versions shown).map Version.normalize
    commonPrefixes := Item.commons shown
    keyPrefix := nonEmpty r.keyPrefix
    keyMarker := nonEmpty r.keyMarker
    versionIdMarker := nonEmpty r.versionIdMarker
    delimiter := nonEmpty r.delimiter
    maxKeys := r.pageSize
    encoding := r.encoding
    isTruncated
    nextKeyMarker := nonEmpty (last.map (·.key))
    nextVersionIdMarker := nonEmpty (last.map (·.versionId)) }

end Request

/-- The order in which versions are listed: by the bytes of their keys, and within a key from those
drawn later to those drawn earlier. -/
def Version.ListedBefore (drawn : List String) (v w : Version) : Prop :=
  Before v.key w.key ∨ v.key = w.key ∧ Older drawn w.versionId v.versionId

namespace Item

theorem versions_pairwise {drawn : List String} {items : List Item}
    (horder : items.Pairwise (Precedes drawn)) :
    ((versions items).map Version.normalize).Pairwise (Version.ListedBefore drawn) := by
  refine List.pairwise_map.mpr (List.pairwise_filterMap.mpr (horder.imp ?_))
  intro first second hprecedes v hv w hw
  cases hprecedes with
  | key hkey =>
      cases first with
      | common text => cases hv
      | version v' =>
          cases second with
          | common text => cases hw
          | version w' =>
              cases hv
              cases hw
              exact Or.inl (before_iff_lt.mpr hkey)
  | age hkey hage _ =>
      cases hv
      cases hw
      exact Or.inr ⟨hkey, hage⟩

theorem commons_pairwise {drawn : List String} {items : List Item}
    (horder : items.Pairwise (Precedes drawn)) : (commons items).Pairwise Before := by
  refine List.pairwise_filterMap.mpr (horder.imp ?_)
  intro first second hprecedes text htext other hother
  cases hprecedes with
  | age => cases htext
  | key hkey =>
      cases first with
      | version v => cases htext
      | common text' =>
          cases second with
          | version w => cases hother
          | common other' =>
              cases htext
              cases hother
              exact before_iff_lt.mpr hkey

theorem commons_nodup {drawn : List String} {items : List Item}
    (horder : items.Pairwise (Precedes drawn)) : (commons items).Nodup :=
  (commons_pairwise horder).imp fun hbefore => ne_of_lt (before_iff_lt.mp hbefore)

end Item

namespace Store

variable {drawn : List String} {b : Bucket}

theorem page_eq_pageOf (r : Request) (hb : b.WellFormed drawn) :
    page r b = r.pageOf (r.items b) := by
  have hshown := Item.taken_isPrefix r.pageSize.toNat (r.items b)
  have hdistinct := Item.commons_nodup ((r.items_pairwise hb).sublist hshown.sublist)
  have hcommons : (if (nonEmpty r.delimiter).isSome then
      firstOccurrences (Item.commons (Item.taken r.pageSize.toNat (r.items b))) else []) =
        Item.commons (Item.taken r.pageSize.toNat (r.items b)) := by
    split
    · exact firstOccurrences_of_nodup hdistinct
    next hdelimiter =>
      refine (List.eq_nil_iff_forall_not_mem.mpr fun text htext => hdelimiter ?_).symm
      obtain ⟨entry, _, _, hitem⟩ :=
        Request.mem_items.mp (hshown.subset (Item.mem_commons.mp htext))
      obtain ⟨d, _, hd, hempty, _⟩ :=
        Request.groupOf_eq_some_iff.mp (Request.common_mem_itemsOf.mp hitem)
      simp [nonEmpty, hd, hempty]
  have hencoding : nonEmpty r.encoding = r.encoding := by
    unfold Request.encoding
    split <;> rfl
  simp only [page, read_range r _ hb.sorted, Page.normalize, Request.pageOf, Item.reading, hcommons,
    hencoding, delimiter, nonEmpty_nonEmpty]
  cases (Item.left r.pageSize.toNat (r.items b)).isEmpty <;> simp [nonEmpty]

theorem list_of_wellFormed {s : Store} {r : Request} (hbucket : s.bucket? r.bucket = some b)
    (hb : b.WellFormed drawn) : s.list r = .ok (r.pageOf (r.items b)) := by
  simp only [list, hbucket, page_eq_pageOf r hb]

theorem send_of_wellFormed {s : Store} {r : Request} (hbucket : s.bucket? r.bucket = some b)
    (hb : b.WellFormed drawn) (hvalid : r.validate = .ok ()) :
    r.send lister s = (.ok (r.pageOf (r.items b)), s) := by
  simp only [Request.send, hvalid, lister, list_of_wellFormed hbucket hb]

/-- On every store that can come about, the page that answers a request is cut out of the sequence
of items, and sending a request that passes its test gets the same page and leaves the store as it
is. The sequence is ordered by the bytes of the keys and within a key from newer to older. The page
size may be zero, and the request may start anywhere. -/
theorem list_eq_pageOf (history : History) (r : Request)
    (hbucket : history.store.bucket? r.bucket = some b) :
    history.store.list r = .ok (r.pageOf (r.items b)) ∧
      (r.validate = .ok () →
        r.send lister history.store = (.ok (r.pageOf (r.items b)), history.store)) ∧
      (r.items b).Pairwise (Item.Precedes history.drawn) := by
  have hb := history.store_wellFormed.bucket hbucket
  exact ⟨list_of_wellFormed hbucket hb, send_of_wellFormed hbucket hb, r.items_pairwise hb⟩

/-- Three keys, two of them rolled up under `b/`, and a key with two versions on either side. -/
def History.sample : History :=
  [.makeBucket "photos", .putObject none "photos" "c" 6 ⟨"i1", .epoch, "e1"⟩,
    .putObject none "photos" "a" 3 ⟨"i2", .epoch, "e2"⟩,
    .putObject none "photos" "b/1" 4 ⟨"i3", .epoch, "e3"⟩,
    .putDeleteMarker none "photos" "b/2" ⟨"i4", .epoch, "e4"⟩,
    .putObject none "photos" "a" 5 ⟨"i5", .epoch, "e5"⟩,
    .putObject none "photos" "c" 7 ⟨"i6", .epoch, "e6"⟩]

/-- From the newest version of `a` on there is room for its older version, a common prefix and the
newest version of `c`. -/
theorem list_sample :
    let r : Request :=
      { bucket := "photos", delimiter := some "/", keyMarker := some "a",
        versionIdMarker := some "i5",
        maxKeys := some 2 }
    ∃ p, History.sample.store.list r = .ok p ∧
      r.send lister History.sample.store = (.ok p, History.sample.store) ∧
      p.versions.map (fun v => (v.key, v.versionId, v.isLatest)) =
        [("a", "i2", false), ("c", "i6", true)] ∧
      p.commonPrefixes = ["b/"] ∧ p.nextKeyMarker = some "c" ∧
        p.nextVersionIdMarker = some "i6" := by
  intro r
  obtain ⟨b, hbucket⟩ : ∃ b, History.sample.store.bucket? r.bucket = some b :=
    Option.isSome_iff_exists.mp (by decide)
  obtain rfl : b = (History.sample.store.bucket? "photos").getD [] := by rw [hbucket]; rfl
  obtain ⟨hlist, hsend, -⟩ := list_eq_pageOf History.sample r hbucket
  exact ⟨_, hlist, hsend (by decide), by decide⟩

end Store

end VersionedBucket
