import VersionedBucket.Proofs.Store.Cursor

/-! # Walks over a store that changes

Between two turns of a walk anything may be written to the store. Whatever is written, a turn that
is not the last shows an initial part of what the whole listing would show by now behind the last
version shown before, and the walk goes on behind the last version that the turn shows.
-/

namespace VersionedBucket

open Text Store

/-- A walk over a store from its first request on. -/
structure Course where
  request : Request
  /-- What was done to the store before the first turn. -/
  history : History
  /-- The page sizes given to the turns. -/
  sizes : Nat → Option UInt16
  /-- What is done to the store after each turn. -/
  writes : Nat → History

/-- A page size that requests may have. -/
def IsPageSize (size : UInt16) : Prop := size ≠ 0 ∧ size ≤ maxKeysLimit

/-- Keys of the sample store rolled up at slashes. -/
def Request.sample : Request := { bucket := "photos", delimiter := some "/", maxKeys := some 1 }

namespace Course

/-- The page size of a turn: the one given to it, or else that of the turn before. -/
def size (c : Course) : Nat → UInt16
  | 0 => (c.sizes 0).getD c.request.pageSize
  | n + 1 => (c.sizes (n + 1)).getD (c.size n)

/-- All that was done to the store before a turn. -/
def log (c : Course) : Nat → History
  | 0 => c.history
  | n + 1 => c.log n ++ c.writes n

/-- The walk and the store before a turn. -/
def reached (c : Course) : Nat → Walk × Store
  | 0 => (Walk.start c.request, c.history.store)
  | n + 1 =>
    let turn := (c.reached n).1.next Store.lister (c.sizes n) (c.reached n).2
    (turn.walk, (c.writes n).foldl Op.apply turn.state)

/-- A turn of the walk. -/
def turn (c : Course) (n : Nat) : Turn Store :=
  (c.reached n).1.next Store.lister (c.sizes n) (c.reached n).2

/-- The page that a turn brings, if it brings one. -/
def page? (c : Course) (n : Nat) : Option Page := (c.turn n).item.bind Except.toOption

/-- The pages that the first turns bring. -/
def pages (c : Course) (n : Nat) : List Page := (List.range n).filterMap c.page?

/-- The bucket as a turn finds it. -/
def bucket (c : Course) (n : Nat) : Bucket := ((c.log n).store.bucket? c.request.bucket).getD []

/-- The walk starts without a key marker in an existing bucket whose name passes the strict test,
all page sizes are in range, no page limit ends the walk, and the version ids are fresh. The size of
the request itself does not matter if the first turn is given one. -/
structure Admissible (c : Course) : Prop where
  bucket : (c.history.store.bucket? c.request.bucket).isSome
  name : BucketName.check .strict c.request.bucket = .ok ()
  fromStart : c.request.keyMarker = none
  unlimited : c.request.settings.maxPages = none
  sizes : ∀ n, ∀ size ∈ c.sizes n, IsPageSize size
  ownSize : c.sizes 0 = none → IsPageSize c.request.pageSize
  fresh : ∀ n, (c.log n).Fresh

theorem Admissible.bucket? {c : Course} (hc : c.Admissible) (n : Nat) :
    (c.log n).store.bucket? c.request.bucket = some (c.bucket n) := by
  have hsome : ((c.log n).store.bucket? c.request.bucket).isSome := by
    induction n with
    | zero => exact hc.bucket
    | succ n ih => exact History.isSome_bucket?_append ih _
  obtain ⟨b, hb⟩ := Option.isSome_iff_exists.mp hsome
  rw [Course.bucket, hb, Option.getD_some]

theorem Admissible.wellFormed {c : Course} (hc : c.Admissible) (n : Nat) :
    (c.bucket n).WellFormed (c.log n).drawn :=
  (c.log n).store_wellFormed.bucket (hc.bucket? n)

theorem Admissible.isPageSize_size {c : Course} (hc : c.Admissible) (n : Nat) :
    IsPageSize (c.size n) := by
  induction n with
  | zero =>
      rw [size]
      cases hsize : c.sizes 0 with
      | none => exact hc.ownSize hsize
      | some given => exact hc.sizes 0 given hsize
  | succ n ih =>
      rw [size]
      cases hsize : c.sizes (n + 1) with
      | none => exact ih
      | some given => exact hc.sizes (n + 1) given hsize

theorem log_drawn_succ (c : Course) (n : Nat) :
    (c.log (n + 1)).drawn = (c.log n).drawn ++ History.drawn (c.writes n) :=
  History.drawn_append _ _

/-- Listing never changes the store. -/
theorem next_state (w : Walk) (size : Option UInt16) (s : Store) :
    (w.next Store.lister size s).state = s := by
  have hsend (r : Request) : (r.send Store.lister s).2 = s := by
    unfold Request.send
    split <;> rfl
  unfold Walk.next
  split
  · rfl
  · rfl
  · split
    · rfl
    · simp only
      split <;> exact hsend _

theorem reached_store (c : Course) (n : Nat) : (c.reached n).2 = (c.log n).store := by
  induction n with
  | zero => rfl
  | succ n ih =>
      simp only [reached, log, next_state, ih]
      exact (History.store_append _ _).symm

/-! ## Continuations -/

end Course

namespace Request

/-- The same request with another page size. -/
def sized (r : Request) (maxKeys : Option UInt16) : Request := { r with maxKeys }

theorem next?_pageOf_of_left_eq_nil {r : Request} {items : List Item}
    (hleft : Item.left r.pageSize.toNat items = []) : r.next? (r.pageOf items) = .ok none := by
  simp [next?, pageOf, hleft]

theorem cursor?_pageOf {r : Request} {items front : List Item} {v : Version}
    (hleft : Item.left r.pageSize.toNat items ≠ [])
    (hshown : Item.taken r.pageSize.toNat items = front ++ [.version v]) (hid : v.versionId ≠ "") :
    (r.pageOf items).cursor? = some ⟨v.key, some v.versionId⟩ := by
  have hlast : (Item.versions (front ++ [.version v])).getLast? = some v := by
    simp [Item.versions, Item.version?]
  have htruncated : (Item.left r.pageSize.toNat items).isEmpty = false :=
    List.isEmpty_eq_false_iff.mpr hleft
  -- an empty key is no marker on the page, and then the last version itself says where to go on
  by_cases hkey : v.key = ""
  · have hnone : nonEmpty (some "") = none := rfl
    simp [Page.cursor?, pageOf, htruncated, hshown, hlast, hkey, hnone, Version.normalize]
  · simp [Page.cursor?, pageOf, htruncated, hshown, hlast, nonEmpty_some hkey, nonEmpty_some hid]

/-- A full page whose last version is not the one the request starts from leads on
behind that version. -/
theorem next?_pageOf_of_left_ne_nil {r : Request} {items front : List Item} {v : Version}
    (hleft : Item.left r.pageSize.toNat items ≠ [])
    (hshown : Item.taken r.pageSize.toNat items = front ++ [.version v]) (hid : v.versionId ≠ "")
    (hmoves : r.startsAt ⟨v.key, some v.versionId⟩ = false) :
    r.next? (r.pageOf items) = .ok (some (r.behind v)) := by
  have htruncated : (r.pageOf items).isTruncated = true := by simp [pageOf, hleft]
  simp [next?, htruncated, cursor?_pageOf hleft hshown hid, hmoves, behind]

end Request

namespace Course

/-! ## Turns -/

/-- The walk is about to fetch what comes behind a version. -/
def Ready (c : Course) (n : Nat) (shownLast : Option Version) : Prop :=
  ∃ maxKeys pagesFetched,
    (c.reached n).1 =
      { request := some ((c.request.resumed shownLast).sized maxKeys), pagesFetched } ∧
    (c.request.sized (c.sizes n <|> maxKeys)).pageSize = c.size n

/-- What a turn comes to that is not past the end: the items due are shown or left over. -/
structure Shows (c : Course) (n : Nat) (shownLast : Option Version) (shown rest : List Item)
    (p : Page) : Prop where
  page : c.page? n = some p
  sized : p.maxKeys = c.size n
  due : (c.request.resumed shownLast).items (c.bucket n) = shown ++ rest
  versions : p.versions = (Item.versions shown).map Version.normalize
  commonPrefixes : p.commonPrefixes = Item.commons shown
  truncated : p.isTruncated = !rest.isEmpty
  /-- Nothing is shown only if nothing is due. -/
  progress : shown = [] → rest = []
  /-- With nothing left over the walk is complete. -/
  complete : rest = [] → (c.reached (n + 1)).1.isDone = true
  /-- Else the page is full, and the walk goes on behind the version it ends with. -/
  goesOn : rest ≠ [] → p.versions.length = p.maxKeys.toNat ∧
    ∃ front v, shown = front ++ [.version v] ∧ c.Ready (n + 1) (some v)

theorem next_of_send {w : Walk} {r : Request} {size : Option UInt16} {s : Store} {p : Page}
    (hpending : w.pending = none) (hrequest : w.request = some r)
    (hlimit : r.settings.maxPages = none)
    (hsend : (r.sized (size <|> r.maxKeys)).send Store.lister s = (.ok p, s)) :
    (w.next Store.lister size s).item = some (.ok p) ∧
      ∀ request, (r.sized (size <|> r.maxKeys)).next? p = .ok request →
        (w.next Store.lister size s).walk = { request, pagesFetched := w.pagesFetched + 1 } := by
  unfold Request.sized at *
  constructor
  · simp only [Walk.next, Walk.isExhausted, hpending, hrequest, hlimit, hsend, Bool.false_eq_true,
      if_false]
  · intro request hnext
    simp only [Walk.next, Walk.isExhausted, hpending, hrequest, hlimit, hsend, hnext,
      Bool.false_eq_true, if_false]

/-- The turn sends the waiting request with the page size that is due. -/
theorem Ready.sends {c : Course} (hc : c.Admissible) {n : Nat} {shownLast : Option Version}
    (hready : c.Ready n shownLast) :
    ∃ r maxKeys pagesFetched, r = (c.request.resumed shownLast).sized maxKeys ∧
      r.pageSize = c.size n ∧
      (c.turn n).item = some (.ok (r.pageOf (r.items (c.bucket n)))) ∧
      ∀ request, r.next? (r.pageOf (r.items (c.bucket n))) = .ok request →
        (c.reached (n + 1)).1 = { request, pagesFetched } := by
  obtain ⟨maxKeys, pagesFetched, hwalk, hsize⟩ := hready
  obtain ⟨r, hr⟩ : ∃ r, r = (c.request.resumed shownLast).sized (c.sizes n <|> maxKeys) := ⟨_, rfl⟩
  have hbucket : r.bucket = c.request.bucket := by subst hr; cases shownLast <;> rfl
  have hpageSize : r.pageSize = c.size n := by subst hr; cases shownLast <;> exact hsize
  have hlimit : (c.request.resumed shownLast).settings.maxPages = none := by
    cases shownLast <;> exact hc.unlimited
  have hvalid : r.validate = .ok () := by
    have hrange := hc.isPageSize_size n
    simp only [Request.validate, hbucket, hc.name, hpageSize]
    exact if_neg fun hbad => hbad.elim hrange.1 (UInt16.not_lt.mpr hrange.2)
  have hsend := Store.send_of_wellFormed (hbucket ▸ hc.bucket? n) (hc.wellFormed n) hvalid
  have hrequest : (c.reached n).1.request = some ((c.request.resumed shownLast).sized maxKeys) := by
    rw [hwalk]
  have hpending : (c.reached n).1.pending = none := by rw [hwalk]
  subst hr
  have hnext := next_of_send hpending hrequest hlimit hsend
  rw [← c.reached_store] at hnext
  exact ⟨_, _, _, rfl, hpageSize, hnext.1, hnext.2⟩

/-- The last version shown on a truncated page is a usable place to go on: its id is not empty, and
it is not the place from which the page was asked for. -/
theorem usable_of_mem_resumed {c : Course} (hc : c.Admissible) {n : Nat}
    {shownLast : Option Version} (hplace : ∀ v ∈ shownLast, c.request.groupOf v.key = none)
    {v : Version} (hv : Item.version v ∈ (c.request.resumed shownLast).items (c.bucket n)) :
    v.versionId ≠ "" ∧
      (c.request.resumed shownLast).startsAt ⟨v.key, some v.versionId⟩ = false := by
  have hb := hc.wellFormed n
  have hdistinct := (hc.fresh n).distinct
  constructor
  · intro hempty
    have hmem := Request.mem_items_of_mem_resumed hdistinct hb hc.fromStart hplace hv
    have hdrawn := hb.mem_drawn (Request.of_version_mem_items hb hc.fromStart hmem).2.2
    exact (hc.fresh n).nonempty (hempty ▸ hdrawn)
  · cases shownLast with
    | none => simp [Request.startsAt, Request.resumed, hc.fromStart]
    | some w =>
        have hafter :=
          Request.precedes_of_mem_items_behind hdistinct hb hc.fromStart (hplace w rfl) hv
        cases hafter with
        | key hlt =>
            have hne : w.key ≠ v.key := ne_of_lt hlt
            simp [Request.startsAt, Request.resumed, Request.behind, Request.movedTo, hne]
        | age _ holder _ =>
            have hne : w.versionId ≠ v.versionId := by
              intro heq
              rw [heq] at holder
              exact older_asymm hdistinct holder holder
            simp [Request.startsAt, Request.resumed, Request.behind, Request.movedTo, hne]

/-- A turn that is not past the end brings a page. -/
theorem Ready.shows {c : Course} (hc : c.Admissible) {n : Nat} {shownLast : Option Version}
    (hready : c.Ready n shownLast) (hplace : ∀ v ∈ shownLast, c.request.groupOf v.key = none) :
    ∃ shown rest p, c.Shows n shownLast shown rest p := by
  obtain ⟨r, maxKeys, pagesFetched, hr, hpageSize, hitem, hwalk⟩ := hready.sends hc
  have hroom : 0 < r.pageSize.toNat := by
    have hne := (hc.isPageSize_size n).1
    rw [← hpageSize, ne_eq, ← UInt16.toNat_inj] at hne
    exact Nat.pos_of_ne_zero hne
  have hdue : r.items (c.bucket n) = (c.request.resumed shownLast).items (c.bucket n) := by
    subst hr; rfl
  rw [hdue] at hitem hwalk
  refine ⟨Item.taken r.pageSize.toNat ((c.request.resumed shownLast).items (c.bucket n)),
    Item.left r.pageSize.toNat ((c.request.resumed shownLast).items (c.bucket n)),
    r.pageOf ((c.request.resumed shownLast).items (c.bucket n)),
    ⟨?_, hpageSize, (Item.taken_append_left _ _).symm, rfl, rfl, rfl, ?_, ?_, ?_⟩⟩
  · simp only [page?, hitem, Option.bind_some, Except.toOption]
  · intro hnothing
    -- a page with room for a version takes the first item whatever it is
    by_contra hleft
    refine Item.taken_ne_nil (fun hnil => ?_) hroom hnothing
    simp [Item.left, hnil] at hleft
  · intro hleft
    rw [hwalk none (Request.next?_pageOf_of_left_eq_nil hleft)]
    rfl
  · intro hleft
    obtain ⟨front, v, hshown⟩ := Item.exists_taken_eq_append hleft hroom
    have hv : Item.version v ∈ (c.request.resumed shownLast).items (c.bucket n) := by
      refine (Item.taken_isPrefix r.pageSize.toNat _).subset ?_
      rw [hshown]
      simp
    obtain ⟨hid, hmoves⟩ := usable_of_mem_resumed hc hplace hv
    refine ⟨?_, front, v, hshown, ?_⟩
    · simp only [Request.pageOf, List.length_map, Item.length_versions_taken hleft]
    · refine ⟨maxKeys, pagesFetched, ?_, ?_⟩
      · have hnext :=
          Request.next?_pageOf_of_left_ne_nil hleft hshown hid (by subst hr; exact hmoves)
        rw [hwalk _ hnext]
        subst hr
        cases shownLast <;> rfl
      · rw [size]
        cases c.sizes (n + 1) with
        | some given => rfl
        | none =>
            subst hr
            cases shownLast <;> exact hpageSize

/-- Past the end nothing comes any more. -/
theorem turn_of_isDone {c : Course} {n : Nat} (hdone : (c.reached n).1.isDone = true) :
    (c.turn n).item = none ∧ (c.reached (n + 1)).1.isDone = true := by
  obtain ⟨hrequest, hpending⟩ := Bool.and_eq_true_iff.mp hdone
  rw [Option.isNone_iff_eq_none] at hrequest hpending
  simp [turn, reached, Walk.next, hrequest, hpending, Walk.isDone]

theorem ready_zero (c : Course) : c.Ready 0 none := by
  refine ⟨c.request.maxKeys, 0, rfl, ?_⟩
  rw [size]
  cases c.sizes 0 <;> rfl

/-- A walk over the sample store, one version at a time but for the second turn, which
asks for two. -/
def sample (writes : Nat → History) : Course where
  request := .sample
  history := .sample
  sizes n := if n = 1 then some 2 else if n = 2 then some 1 else none
  writes := writes

theorem sample_admissible {writes : Nat → History} (hfresh : ∀ n, ((sample writes).log n).Fresh) :
    (sample writes).Admissible where
  bucket := (by decide : (History.sample.store.bucket? Request.sample.bucket).isSome)
  name := (by decide : BucketName.check .strict Request.sample.bucket = .ok ())
  fromStart := rfl
  unlimited := rfl
  sizes n size hsize := by
    simp only [sample] at hsize
    split at hsize
    · cases hsize
      exact ⟨by decide, by decide⟩
    · split at hsize
      · cases hsize
        exact ⟨by decide, by decide⟩
      · cases hsize
  ownSize _ := ⟨(by decide : Request.sample.pageSize ≠ 0),
    (by decide : Request.sample.pageSize ≤ maxKeysLimit)⟩
  fresh := hfresh

end Course

end VersionedBucket
