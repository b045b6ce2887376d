import VersionedBucket.Proofs.Store.History
import VersionedBucket.Proofs.Store.RollUp
import Mathlib.Data.List.Pairwise

/-! # The sequence behind a listing

A request and a bucket determine one sequence of items: common prefixes and versions in the order in
which pages show them. The sequence is defined without regard to pages. It is strictly ordered, by
key and within a key from newer to older, and it stays so when the request starts from a cursor.
-/

namespace VersionedBucket

open Text Store

/-- The versions of a key, given newest first, with the newest and no other flagged
as the latest. -/
def Version.flagged (newestFirst : List Version) : List Version :=
  newestFirst.mapIdx fun age v => { v with isLatest := age == 0 }

/-- One item of a listing. -/
inductive Item where
  | common (text : String)
  | version (v : Version)
  deriving DecidableEq, Repr

namespace Item

/-- What an item is ordered by. -/
def key : Item → String
  | common text => text
  | version v => v.key

def common? : Item → Option String
  | common text => some text
  | version _ => none

def version? : Item → Option Version
  | common _ => none
  | version v => some v

/-- The common prefixes among items. -/
def commons (items : List Item) : List String := items.filterMap common?

/-- The versions among items. -/
def versions (items : List Item) : List Version := items.filterMap version?

/-- The items with repeated common prefixes left out. -/
def once : List Item → List Item
  | [] => []
  | version v :: rest => version v :: once rest
  | common text :: rest => common text :: (once rest).filter (· ≠ common text)

/-- The longest initial part that stops in front of the first item reached without room. Only
versions take up room. -/
def taken : Nat → List Item → List Item
  | _, [] => []
  | 0, _ :: _ => []
  | room + 1, version v :: rest => version v :: taken room rest
  | room + 1, common text :: rest => common text :: taken (room + 1) rest

end Item

namespace Request

/-- The key is wanted and not passed over: it is not below the key marker, and it is not the marker
itself unless a version of it is marked too. -/
def reaches (r : Request) (key : String) : Bool :=
  r.wants key &&
    match r.keyMarker with
    | none => true
    | some marker => !decide (Before key marker) && (key != marker || r.versionIdMarker.isSome)

/-- The versions of a key that are listed: all of them, or under the marked key those behind the
marked version, which are none if there is no such version. -/
def listed (r : Request) (key : String) (newestFirst : List Version) : List Version :=
  match r.keyMarker, r.versionIdMarker with
  | some marker, some versionId =>
    if key = marker then
      ((Version.flagged newestFirst).dropWhile fun v => v.versionId != versionId).tail
    else Version.flagged newestFirst
  | _, _ => Version.flagged newestFirst

/-- What one key adds to a listing. -/
def itemsOf (r : Request) (entry : String × List Version) : List Item :=
  match r.groupOf entry.1 with
  | some common => [.common common]
  | none => (r.listed entry.1 entry.2).map .version

/-- All that a request lists of a bucket, in order. -/
def items (r : Request) (b : Bucket) : List Item :=
  Item.once ((b.filter fun entry => r.reaches entry.1).flatMap r.itemsOf)

end Request

/-! ## Order of items -/

namespace Item

/-- One item comes before another: its key is smaller, or it is a newer version of the same key. A
version with a newer one before it is not the latest. -/
inductive Precedes (drawn : List String) : Item → Item → Prop
  | key {first second : Item} (hkey : first.key < second.key) : Precedes drawn first second
  | age {newer older : Version} (hkey : newer.key = older.key)
      (hage : Older drawn older.versionId newer.versionId) (hlatest : older.isLatest = false) :
      Precedes drawn (version newer) (version older)

variable {drawn : List String}

theorem Precedes.key_le {first second : Item} (hprecedes : Precedes drawn first second) :
    first.key ≤ second.key := by
  cases hprecedes with
  | key hkey => exact hkey.le
  | age hkey _ _ => exact hkey.le

theorem Precedes.append {first second : Item} (hprecedes : Precedes drawn first second)
    (more : List String) : Precedes (drawn ++ more) first second := by
  cases hprecedes with
  | key hkey => exact .key hkey
  | age hkey hage hlatest => exact .age hkey (hage.append more) hlatest

theorem Precedes.trans (hdistinct : drawn.Nodup) {first second third : Item}
    (hleft : Precedes drawn first second) (hright : Precedes drawn second third) :
    Precedes drawn first third := by
  cases hleft with
  | key hkey => exact .key (hkey.trans_le hright.key_le)
  | age hkey hage _ =>
      cases hright with
      | key hright => exact .key ((le_of_eq hkey).trans_lt hright)
      | age hkey' hage' hlatest =>
          exact .age (hkey.trans hkey') (older_trans hdistinct hage' hage) hlatest

theorem Precedes.asymm (hdistinct : drawn.Nodup) {first second : Item}
    (hleft : Precedes drawn first second) : ¬ Precedes drawn second first := by
  intro hright
  cases hleft with
  | key hkey => exact absurd hright.key_le (not_le.mpr hkey)
  | age hkey hage _ =>
      cases hright with
      | key hright => exact absurd hkey (ne_of_gt hright)
      | age _ hage' _ => exact older_asymm hdistinct hage hage'

/-- Of two items of an ordered sequence one precedes the other. -/
theorem precedes_or_precedes {items : List Item} (horder : items.Pairwise (Precedes drawn))
    {first second : Item} (hfirst : first ∈ items) (hsecond : second ∈ items)
    (hne : first ≠ second) :
    Precedes drawn first second ∨ Precedes drawn second first := by
  have hboth : items.Pairwise fun a b => Precedes drawn a b ∨ Precedes drawn b a :=
    horder.imp Or.inl
  have : Std.Symm fun a b => Precedes drawn a b ∨ Precedes drawn b a := ⟨fun _ _ => Or.symm⟩
  exact hboth.forall hfirst hsecond hne

theorem mem_once {items : List Item} {item : Item} : item ∈ once items ↔ item ∈ items := by
  induction items with
  | nil => simp [once]
  | cons head rest ih =>
      cases head with
      | version v => simp [once, ih]
      | common text =>
          simp only [once, List.mem_cons, List.mem_filter, ih, decide_not, Bool.not_eq_eq_eq_not,
            Bool.not_true, decide_eq_false_iff_not]
          by_cases heq : item = common text <;> simp [heq]

/-- Leaving out repeated common prefixes is all it takes to make an order strict whose only ties are
between equal common prefixes. -/
theorem once_pairwise {items : List Item} (hitems : items.Pairwise fun first second =>
      Precedes drawn first second ∨ ∃ text, first = common text ∧ second = common text) :
    (once items).Pairwise (Precedes drawn) := by
  induction items with
  | nil => exact List.Pairwise.nil
  | cons head rest ih =>
      obtain ⟨hhead, hrest⟩ := List.pairwise_cons.mp hitems
      cases head with
      | version v =>
          refine List.pairwise_cons.mpr ⟨fun item hitem => ?_, ih hrest⟩
          refine (hhead item (mem_once.mp hitem)).resolve_right ?_
          rintro ⟨_, heq, _⟩
          cases heq
      | common text =>
          refine List.pairwise_cons.mpr ⟨fun item hitem => ?_, (ih hrest).filter _⟩
          obtain ⟨hitem, hne⟩ := List.mem_filter.mp hitem
          refine (hhead item (mem_once.mp hitem)).resolve_right ?_
          rintro ⟨_, heq, rfl⟩
          cases heq
          simp at hne

end Item

namespace Version

theorem flagged_cons (newest : Version) (older : List Version) :
    flagged (newest :: older) =
      { newest with isLatest := true } :: older.map fun v => { v with isLatest := false } := by
  refine List.ext_getElem (by simp [flagged]) ?_
  intro age hleft hright
  cases age <;> simp [flagged]

theorem map_versionId_flagged (newestFirst : List Version) :
    (flagged newestFirst).map (·.versionId) = newestFirst.map (·.versionId) := by
  refine List.ext_getElem (by simp [flagged]) ?_
  simp [flagged]

theorem key_of_mem_flagged {newestFirst : List Version} {key : String}
    (hfiled : ∀ v ∈ newestFirst, v.key = key) {v : Version} (hv : v ∈ flagged newestFirst) :
    v.key = key := by
  obtain ⟨age, hage, rfl⟩ := List.mem_iff_getElem.mp hv
  simp only [flagged, List.getElem_mapIdx]
  exact hfiled _ (List.getElem_mem _)

/-- Of two versions of a key the one behind was drawn earlier. -/
theorem flagged_newestFirst {drawn : List String} {newestFirst : List Version}
    (hdrawn : (newestFirst.map (·.versionId)).reverse.Sublist drawn) :
    (flagged newestFirst).Pairwise fun newer older =>
      Older drawn older.versionId newer.versionId := by
  have hids : ((flagged newestFirst).map (·.versionId)).Pairwise fun newer older =>
    Older drawn older newer := by
    rw [map_versionId_flagged, List.pairwise_iff_forall_sublist]
    intro newer older hsub
    exact (List.reverse_sublist.mpr hsub).trans hdrawn
  exact List.pairwise_map.mp hids

/-- The versions of one key precede one another. -/
theorem flagged_pairwise {drawn : List String} {newestFirst : List Version} {key : String}
    (hfiled : ∀ v ∈ newestFirst, v.key = key)
    (hdrawn : (newestFirst.map (·.versionId)).reverse.Sublist drawn) :
    (flagged newestFirst).Pairwise fun newer older =>
      Item.Precedes drawn (.version newer) (.version older) := by
  rw [List.pairwise_iff_getElem]
  intro i j hi hj hlt
  have hkey (v : Version) (hv : v ∈ flagged newestFirst) := key_of_mem_flagged hfiled hv
  refine .age ((hkey _ (List.getElem_mem _)).trans (hkey _ (List.getElem_mem _)).symm) ?_ ?_
  · exact List.pairwise_iff_getElem.mp (flagged_newestFirst hdrawn) i j hi hj hlt
  · simp only [flagged, List.getElem_mapIdx, beq_eq_false_iff_ne]
    omega

end Version

namespace Request

variable {drawn : List String} {b : Bucket}

theorem listed_sublist (r : Request) (key : String) (newestFirst : List Version) :
    (r.listed key newestFirst).Sublist (Version.flagged newestFirst) := by
  unfold listed
  split
  · split
    · exact (List.tail_sublist _).trans (List.dropWhile_sublist _)
    · exact List.Sublist.refl _
  · exact List.Sublist.refl _

theorem wants_of_reaches {r : Request} {key : String} (hreaches : r.reaches key = true) :
    r.wants key = true :=
  (Bool.and_eq_true_iff.mp hreaches).1

theorem mem_items {r : Request} {item : Item} :
    item ∈ r.items b ↔ ∃ entry ∈ b, r.reaches entry.1 = true ∧ item ∈ r.itemsOf entry := by
  simp only [items, Item.mem_once, List.mem_flatMap, List.mem_filter, and_assoc]

theorem common_mem_itemsOf {r : Request} {entry : String × List Version} {text : String} :
    Item.common text ∈ r.itemsOf entry ↔ r.groupOf entry.1 = some text := by
  unfold itemsOf
  split
  next common hgroup => simp [hgroup, eq_comm]
  next hgroup => simp [hgroup]

theorem version_mem_itemsOf {r : Request} {entry : String × List Version} {v : Version} :
    Item.version v ∈ r.itemsOf entry ↔ r.groupOf entry.1 = none ∧ v ∈ r.listed entry.1 entry.2 := by
  unfold itemsOf
  split
  next common hgroup => simp [hgroup]
  next hgroup => simp [hgroup]

/-- Two keys in order add their items in order; only the common prefix that they share
is added twice. -/
theorem itemsOf_ordered {r : Request} (hb : b.WellFormed drawn)
    {first second : String × List Version} (hfirst : first ∈ b) (hsecond : second ∈ b)
    (hfirstWants : r.wants first.1 = true) (hsecondWants : r.wants second.1 = true)
    (hlt : first.1 < second.1) {left right : Item} (hleft : left ∈ r.itemsOf first)
    (hright : right ∈ r.itemsOf second) :
    Item.Precedes drawn left right ∨ ∃ text, left = .common text ∧ right = .common text := by
  have hfiled {entry : String × List Version} (hentry : entry ∈ b) {v : Version}
      (hv : Item.version v ∈ r.itemsOf entry) : v.key = entry.1 :=
    Version.key_of_mem_flagged (hb.filed entry hentry)
      ((r.listed_sublist _ _).subset (version_mem_itemsOf.mp hv).2)
  cases right with
  | version w =>
      refine Or.inl (.key ?_)
      have hkey : w.key = second.1 := hfiled hsecond hright
      cases left with
      | version v => exact (hfiled hfirst hleft).trans_lt (hlt.trans_eq hkey.symm)
      | common text =>
          have hle := groupOf_le hfirstWants (common_mem_itemsOf.mp hleft)
          exact hle.trans_lt (hlt.trans_eq hkey.symm)
  | common text =>
      have hgroup := common_mem_itemsOf.mp hright
      by_cases hsame : r.groupOf first.1 = some text
      · cases left with
        | version v => simp [(version_mem_itemsOf.mp hleft).1] at hsame
        | common other =>
            rw [common_mem_itemsOf.mp hleft, Option.some.injEq] at hsame
            exact Or.inr ⟨text, by rw [hsame], rfl⟩
      -- the groups differ, so the first key is below the whole group of the second
      · refine Or.inl (.key ?_)
        have hbelow : first.1 < text := lt_groupOf hsecondWants hgroup hsame hlt
        cases left with
        | version v => exact (hfiled hfirst hleft).trans_lt hbelow
        | common other =>
            exact (groupOf_le hfirstWants (common_mem_itemsOf.mp hleft)).trans_lt hbelow

/-- The items of a listing are strictly ordered. -/
theorem items_pairwise (r : Request) (hb : b.WellFormed drawn) :
    (r.items b).Pairwise (Item.Precedes drawn) := by
  refine Item.once_pairwise (List.pairwise_flatMap.mpr ⟨?_, ?_⟩)
  · intro entry hentry
    obtain ⟨hentry, -⟩ := List.mem_filter.mp hentry
    unfold itemsOf
    split
    · exact List.pairwise_singleton _ _
    -- behind a cursor some versions of the key are missing, but those that are listed
    -- keep their order
    · refine List.pairwise_map.mpr (List.Pairwise.sublist (r.listed_sublist _ _) ?_)
      exact (Version.flagged_pairwise (hb.filed entry hentry)
        (hb.newestFirst entry hentry)).imp Or.inl
  · have hsorted : (b.filter fun entry => r.reaches entry.1).Pairwise fun first second =>
        first.1 < second.1 :=
      (List.pairwise_map.mp hb.sorted).filter _
    refine hsorted.imp_of_mem ?_
    intro first second hfirst hsecond hlt left hleft right hright
    obtain ⟨hfirst, hfirstReaches⟩ := List.mem_filter.mp hfirst
    obtain ⟨hsecond, hsecondReaches⟩ := List.mem_filter.mp hsecond
    exact itemsOf_ordered hb hfirst hsecond (wants_of_reaches hfirstReaches)
      (wants_of_reaches hsecondReaches) hlt hleft hright

end Request

end VersionedBucket
