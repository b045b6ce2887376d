import VersionedBucket.Proofs.Walk.Run

/-! # Walks between writes

Whatever is written between the turns of a walk, what its pages show stays in order, so nothing is
shown twice. A version that is in the store at every fetch is shown as well, with one exception: a
page ends with a newer version of its key, and that version is removed before the next fetch. The
next page then goes on behind the key.
-/

namespace VersionedBucket

open Text Store

namespace Item

theorem latest_pairwise {drawn : List String} {items : List Item}
    (horder : items.Pairwise (Precedes drawn)) :
    ((versions items).map Version.normalize).Pairwise fun v w =>
      v.isLatest = true → w.isLatest = true → v.key ≠ w.key := by
  refine List.pairwise_map.mpr (List.pairwise_filterMap.mpr (horder.imp ?_))
  intro first second hprecedes v hv w hw _ hlatest
  cases hprecedes with
  | key hkey =>
      cases first with
      | common text => cases hv
      | version v' =>
          cases second with
          | common text => cases hw
          | version w' =>
              cases hv
              cases hw
              exact ne_of_lt hkey
  | age _ _ hnot =>
      cases hw
      exact absurd (hnot.symm.trans hlatest) Bool.false_ne_true

end Item

namespace Course

/-- A version is cut off by a turn: the page ends with a newer version of the same key, and that
version is gone when the next page is fetched. -/
def CutOff (c : Course) (n : Nat) (key versionId : String) : Prop :=
  ∃ p cursor, c.page? n = some p ∧ p.isTruncated = true ∧ p.versions.getLast? = some cursor ∧
    cursor.key = key ∧ (c.bucket (n + 1)).holds key cursor.versionId = false ∧
    Older (c.log (n + 1)).drawn versionId cursor.versionId

/-- A version comes after the last one shown. -/
def Ahead (drawn : List String) (shownLast : Option Version) (key versionId : String) : Prop :=
  ∀ v ∈ shownLast, v.key < key ∨ v.key = key ∧ Older drawn versionId v.versionId

variable {c : Course} {n : Nat} {items shown rest front : List Item}
  {shownLast : Option Version} {p : Page}
  {v : Version} {key versionId : String}

theorem Shows.precedes_of_mem_rest (hc : c.Admissible) (hshows : c.Shows n shownLast shown rest p)
    (hfront : shown = front ++ [.version v]) {item : Item} (hitem : item ∈ rest) :
    Item.Precedes (c.log n).drawn (.version v) item := by
  have hdue := (c.request.resumed shownLast).items_pairwise (hc.wellFormed n)
  rw [hshows.due, hfront] at hdue
  exact (List.pairwise_append.mp hdue).2.2 _ (by simp) item hitem

theorem Run.page_of_some (hrun : c.Run n items (some v)) : ∃ m p, n = m + 1 ∧ c.page? m = some p ∧
    p.isTruncated = true ∧ p.versions.getLast? = some v.normalize := by
  cases hrun with
  | @turn m _ _ _ _ _ p _ _ hshows hrest hfront =>
      refine ⟨m, p, rfl, hshows.page, by simp [hshows.truncated, hrest], ?_⟩
      rw [hshows.versions, hfront, Item.versions_append]
      simp [Item.versions, Item.version?]

/-! ## What stays is shown -/

/-- A version that is held and comes after the last one shown is due, unless that one is of the same
key and no longer held. -/
theorem Shows.version_due (hc : c.Admissible) (hshows : c.Shows n shownLast shown rest p)
    (hwants : c.request.wants key = true) (hgroup : c.request.groupOf key = none)
    (hholds : (c.bucket n).holds key versionId = true)
    (hplace : ∀ v ∈ shownLast, c.request.groupOf v.key = none)
    (hahead : Ahead (c.log n).drawn shownLast key versionId) :
    (∃ w, .version w ∈ shown ++ rest ∧ w.key = key ∧ w.versionId = versionId) ∨
      ∃ v ∈ shownLast, v.key = key ∧ (c.bucket n).holds key v.versionId = false ∧
        Older (c.log n).drawn versionId v.versionId := by
  obtain ⟨w, hw, hkey, hid⟩ :=
    Request.exists_version_mem_items (hc.wellFormed n) hc.fromStart hwants hgroup hholds
  rw [← hshows.due]
  cases shownLast with
  | none => exact Or.inl ⟨w, hw, hkey, hid⟩
  | some v =>
      have hbehind (item : Item) : item ∈ (c.request.behind v).items (c.bucket n) ↔ _ :=
        Request.mem_items_behind (hc.fresh n).distinct (hc.wellFormed n) hc.fromStart (hplace v rfl)
      rcases hahead v rfl with hlt | ⟨hsame, holder⟩
      · exact Or.inl ⟨w, (hbehind _).mpr ⟨hw, Or.inl (hlt.trans_eq hkey.symm)⟩, hkey, hid⟩
      -- an older version of the same key is found again only if the cursor is still there
      · by_cases hcursor : (c.bucket n).holds key v.versionId = true
        · subst hid
          refine Or.inl ⟨w,
            (hbehind _).mpr ⟨hw, Or.inr ⟨w, rfl, hkey.trans hsame.symm, holder, ?_⟩⟩, hkey, rfl⟩
          rw [hsame, hcursor]
        · exact Or.inr ⟨v, rfl, hsame, Bool.eq_false_iff.mpr hcursor, holder⟩

theorem Run.turn_accounts (hc : c.Admissible) (hrun : c.Run n items shownLast)
    (hshows : c.Shows n shownLast shown rest p) (hwants : c.request.wants key = true)
    (hgroup : c.request.groupOf key = none) (hholds : (c.bucket n).holds key versionId = true)
    (hahead : Ahead (c.log n).drawn shownLast key versionId) :
    (∃ w, .version w ∈ shown ++ rest ∧ w.key = key ∧ w.versionId = versionId) ∨
      ∃ i, c.CutOff i key versionId := by
  refine (hshows.version_due hc hwants hgroup hholds (hrun.place hc) hahead).imp_right ?_
  rintro ⟨v, hv, hkey, hgone, holder⟩
  obtain rfl := Option.mem_def.mp hv
  obtain ⟨m, q, rfl, hpage, htruncated, hlast⟩ := hrun.page_of_some
  exact ⟨m, q, v.normalize, hpage, htruncated, hlast, hkey, hgone, holder⟩

/-- A version that is in the store whenever a page is fetched has been shown, has been cut off, or
is still to come. -/
theorem Run.accounts (hc : c.Admissible) (hrun : c.Run n items shownLast)
    (hwants : c.request.wants key = true) (hgroup : c.request.groupOf key = none)
    (hstays : ∀ i, (c.page? i).isSome → (c.bucket i).holds key versionId = true) :
    (∃ w, .version w ∈ items ∧ w.key = key ∧ w.versionId = versionId) ∨
      (∃ i, c.CutOff i key versionId) ∨
      Ahead (c.log n).drawn shownLast key versionId := by
  induction hrun with
  | start => exact Or.inr (Or.inr (by simp [Ahead]))
  | @turn n _ _ _ _ _ _ v hrun hshows _ hfront ih =>
      rcases ih with ⟨w, hw, hfound⟩ | hcut | hahead
      · exact Or.inl ⟨w, List.mem_append_left _ hw, hfound⟩
      · exact Or.inr (Or.inl hcut)
      · have hholds := hstays n (by simp [hshows.page])
        rcases hrun.turn_accounts hc hshows hwants hgroup hholds hahead with
          ⟨w, hw, rfl, rfl⟩ | hcut
        · rcases List.mem_append.mp hw with hshown | hrest
          · exact Or.inl ⟨w, List.mem_append_right _ hshown, rfl, rfl⟩
          -- what this turn leaves over comes after its last version, also by the later order of age
          · refine Or.inr (Or.inr ?_)
            rintro _ ⟨⟩
            rw [log_drawn_succ]
            cases hshows.precedes_of_mem_rest hc hfront hrest with
            | key hlt => exact Or.inl hlt
            | age hkey holder _ => exact Or.inr ⟨hkey, holder.append _⟩
        · exact Or.inr (Or.inl hcut)

/-- Once a walk is complete, a version that was in the store at every fetch has been shown
or cut off. -/
theorem Ends.accounts (hc : c.Admissible) (hends : c.Ends n items)
    (hwants : c.request.wants key = true) (hgroup : c.request.groupOf key = none)
    (hstays : ∀ i, (c.page? i).isSome → (c.bucket i).holds key versionId = true) :
    (∃ w, .version w ∈ items ∧ w.key = key ∧ w.versionId = versionId) ∨ ∃ i,
      c.CutOff i key versionId := by
  cases hends with
  | turn hrun hshows =>
      rcases hrun.accounts hc hwants hgroup hstays with ⟨w, hw, hfound⟩ | hcut | hahead
      · exact Or.inl ⟨w, List.mem_append_left _ hw, hfound⟩
      · exact Or.inr hcut
      · have hholds := hstays n (by simp [hshows.page])
        rcases hrun.turn_accounts hc hshows hwants hgroup hholds hahead with ⟨w, hw, hfound⟩ | hcut
        · rw [List.append_nil] at hw
          exact Or.inl ⟨w, List.mem_append_right _ hw, hfound⟩
        · exact Or.inr hcut

/-! ## What is cut off is not shown -/

/-- The walk has left a key behind: it stands at a later key, or at a version of the key
that is gone. -/
def Past (b : Bucket) (shownLast : Option Version) (key : String) : Prop :=
  ∃ v ∈ shownLast, key < v.key ∨ v.key = key ∧ b.holds key v.versionId = false

theorem Shows.lt_of_past (hc : c.Admissible) (hshows : c.Shows n shownLast shown rest p)
    (hplace : ∀ v ∈ shownLast, c.request.groupOf v.key = none)
    (hpast : Past (c.bucket n) shownLast key) {item : Item} (hitem : item ∈ shown ++ rest) :
    key < item.key := by
  obtain ⟨v, hv, hpast⟩ := hpast
  obtain rfl := Option.mem_def.mp hv
  rw [← hshows.due] at hitem
  have hcase := ((Request.mem_items_behind (hc.fresh n).distinct (hc.wellFormed n) hc.fromStart
    (hplace v rfl)).mp hitem).2
  rcases hpast with hlt | ⟨rfl, hgone⟩
  · rcases hcase with hbehind | ⟨w, rfl, hkey, -⟩
    · exact hlt.trans hbehind
    · exact hlt.trans_eq hkey.symm
  · rcases hcase with hbehind | ⟨_, _, _, _, hholds⟩
    · exact hbehind
    · exact absurd (hgone.symm.trans hholds) Bool.false_ne_true

/-- Behind the turn that cuts a version off, the walk has not shown it and has left
its key behind. -/
theorem Run.cutOff (hc : c.Admissible) (hrun : c.Run n items shownLast) {i : Nat} (hi : i < n)
    (hcut : c.CutOff i key versionId) :
    (∀ w, .version w ∈ items → w.key = key → w.versionId ≠ versionId) ∧
      Past (c.bucket n) shownLast key := by
  induction hrun with
  | start => exact absurd hi (Nat.not_lt_zero i)
  | @turn n items shown _ front _ p v hrun hshows hrest hfront ih =>
      rcases Nat.lt_succ_iff_lt_or_eq.mp hi with hi | rfl
      · obtain ⟨hnot, hpast⟩ := ih hi
        have hlater (item : Item) (hitem : item ∈ shown) : key < item.key :=
          hshows.lt_of_past hc (hrun.place hc) hpast (List.mem_append_left _ hitem)
        constructor
        · intro w hw hkey
          rcases List.mem_append.mp hw with hw | hw
          · exact hnot w hw hkey
          · exact absurd hkey (ne_of_gt (hlater _ hw))
        · have hv : Item.version v ∈ shown := by rw [hfront]; simp
          exact ⟨v, rfl, Or.inl (hlater _ hv)⟩
      · obtain ⟨q, cursor, hpage, _, hlast, hkey, hgone, holder⟩ := hcut
        obtain rfl : p = q := Option.some.inj (hshows.page.symm.trans hpage)
        have hcursor : cursor = v.normalize := by
          rw [hshows.versions, hfront, Item.versions_append] at hlast
          simpa [Item.versions, Item.version?, eq_comm] using hlast
        subst hcursor
        refine ⟨?_, v, rfl, Or.inr ⟨hkey, hgone⟩⟩
        -- the items shown so far end with the cursor, so none of them is an older version
        -- of its key
        rintro w hw hwkey rfl
        have htraced := (Run.turn hrun hshows hrest hfront).traced hc
        have hdistinct := (hc.fresh (i + 1)).distinct
        have horder := htraced.ordered
        rw [hfront, ← List.append_assoc] at horder hw
        rcases List.mem_append.mp hw with hw | hw
        · cases (List.pairwise_append.mp horder).2.2 _ hw (.version v) (by simp) with
          | key hlt => exact absurd (hwkey.trans hkey.symm) (ne_of_lt hlt)
          | age _ hage _ => exact older_asymm hdistinct holder hage
        · cases List.mem_singleton.mp hw
          exact older_asymm hdistinct holder holder

theorem Ends.cutOff (hc : c.Admissible) (hends : c.Ends n items) {i : Nat}
    (hcut : c.CutOff i key versionId) :
    ∀ w, .version w ∈ items → w.key = key → w.versionId ≠ versionId := by
  obtain ⟨q, cursor, hpage, htruncated, hrest⟩ := hcut
  have hi : i < n := by
    rcases Nat.lt_trichotomy i n with hlt | rfl | hgt
    · exact hlt
    -- the page that cuts it off is truncated, which the last page is not
    · cases hends with
      | turn _ hshows =>
          obtain rfl := Option.some.inj (hshows.page.symm.trans hpage)
          simp [hshows.truncated] at htruncated
    · simp [page?, hends.item_eq_none hgt] at hpage
  cases hends with
  | turn hrun hshows =>
      obtain ⟨hnot, hpast⟩ := hrun.cutOff hc hi ⟨q, cursor, hpage, htruncated, hrest⟩
      intro w hw hkey
      rcases List.mem_append.mp hw with hw | hw
      · exact hnot w hw hkey
      · have hlt := hshows.lt_of_past hc (hrun.place hc) hpast (List.mem_append_left _ hw)
        exact absurd hkey (ne_of_gt hlt)

/-! ## Common prefixes -/

theorem Shows.common_due (hc : c.Admissible) (hshows : c.Shows n shownLast shown rest p)
    {text : String} (hwants : c.request.wants key = true)
    (hgroup : c.request.groupOf key = some text) (hkey : key ∈ (c.bucket n).map Prod.fst)
    (hplace : ∀ v ∈ shownLast, c.request.groupOf v.key = none)
    (hahead : ∀ v ∈ shownLast, v.key < text) : .common text ∈ shown ++ rest := by
  obtain ⟨entry, hentry, rfl⟩ := List.mem_map.mp hkey
  have hwhole : Item.common text ∈ c.request.items (c.bucket n) :=
    (Request.common_mem_items hc.fromStart).mpr ⟨entry, hentry, hwants, hgroup⟩
  rw [← hshows.due]
  cases shownLast with
  | none => exact hwhole
  | some v =>
      exact (Request.mem_items_behind (hc.fresh n).distinct (hc.wellFormed n) hc.fromStart
        (hplace v rfl)).mpr
        ⟨hwhole, Or.inl (hahead v rfl)⟩

/-- A common prefix of a key that is in the store whenever a page is fetched has been shown or is
still to come. -/
theorem Run.accounts_common (hc : c.Admissible) (hrun : c.Run n items shownLast) {text : String}
    (hwants : c.request.wants key = true) (hgroup : c.request.groupOf key = some text)
    (hstays : ∀ i, (c.page? i).isSome → key ∈ (c.bucket i).map Prod.fst) :
    .common text ∈ items ∨ ∀ v ∈ shownLast, v.key < text := by
  induction hrun with
  | start => exact Or.inr (by simp)
  | @turn n _ _ _ _ _ _ v hrun hshows _ hfront ih =>
      rcases ih with hfound | hahead
      · exact Or.inl (List.mem_append_left _ hfound)
      · have hkey := hstays n (by simp [hshows.page])
        rcases List.mem_append.mp
          (hshows.common_due hc hwants hgroup hkey (hrun.place hc) hahead) with hshown | hrest
        · exact Or.inl (List.mem_append_right _ hshown)
        · refine Or.inr ?_
          rintro _ ⟨⟩
          cases hshows.precedes_of_mem_rest hc hfront hrest with
          | key hlt => exact hlt

theorem Ends.common_mem (hc : c.Admissible) (hends : c.Ends n items) {text : String}
    (hwants : c.request.wants key = true) (hgroup : c.request.groupOf key = some text)
    (hstays : ∀ i, (c.page? i).isSome → key ∈ (c.bucket i).map Prod.fst) :
    .common text ∈ items := by
  cases hends with
  | turn hrun hshows =>
      rcases hrun.accounts_common hc hwants hgroup hstays with hfound | hahead
      · exact List.mem_append_left _ hfound
      · have hkey := hstays n (by simp [hshows.page])
        have hdue := hshows.common_due hc hwants hgroup hkey (hrun.place hc) hahead
        rw [List.append_nil] at hdue
        exact List.mem_append_right _ hdue

/-! ## The walk -/

theorem item_ne_error (hc : c.Admissible) (n : Nat) (fault : Fault) :
    (c.turn n).item ≠ some (.error fault) := by
  rcases run_or_ends hc n with ⟨_, _, hrun⟩ | ⟨_, _, hm, hends⟩
  · obtain ⟨_, _, _, hshows⟩ := hrun.shows hc
    simp [hshows.item]
  · simp [hends.item_eq_none hm]

theorem exists_ends_of_item_eq_none (hc : c.Admissible) (hnone : (c.turn n).item = none) :
    ∃ m items, m < n ∧ c.Ends m items := by
  rcases run_or_ends hc n with ⟨_, _, hrun⟩ | hends
  · obtain ⟨_, _, _, hshows⟩ := hrun.shows hc
    simp [hshows.item] at hnone
  · exact hends

/-- Whatever is written between its turns, a walk never fails, the versions it shows are in order,
so that none is shown twice, no common prefix is shown twice, and no key has two versions flagged as
the latest. Once the walk is complete, a wanted version that is not rolled up and was in the store
at every fetch has been shown unless it was cut off, and a common prefix has been shown if one key
under it was in the store at every fetch. -/
theorem walk_between_writes (hc : c.Admissible) :
    (∀ n fault, (c.turn n).item ≠ some (.error fault)) ∧
      (∀ n, ((c.pages n).flatMap (·.versions)).Pairwise (Version.ListedBefore (c.log n).drawn)) ∧
      (∀ n, (((c.pages n).flatMap (·.versions)).map fun v => (v.key, v.versionId)).Nodup) ∧
      (∀ n, ((c.pages n).flatMap (·.commonPrefixes)).Nodup) ∧
      (∀ n, ((c.pages n).flatMap (·.versions)).Pairwise fun v w =>
        v.isLatest = true → w.isLatest = true → v.key ≠ w.key) ∧
      ∀ n, (c.turn n).item = none →
        (∀ key versionId, c.request.wants key = true → c.request.groupOf key = none →
          (∀ i, (c.page? i).isSome → (c.bucket i).holds key versionId = true) →
          ((∃ v ∈ (c.pages n).flatMap (·.versions), v.key = key ∧ v.versionId = versionId) ↔
            ¬ ∃ i, c.CutOff i key versionId)) ∧
        ∀ key common, c.request.wants key = true → c.request.groupOf key = some common →
          (∀ i, (c.page? i).isSome → key ∈ (c.bucket i).map Prod.fst) →
          common ∈ (c.pages n).flatMap (·.commonPrefixes) := by
  have horder (n : Nat) :
      ((c.pages n).flatMap (·.versions)).Pairwise (Version.ListedBefore (c.log n).drawn) := by
    obtain ⟨items, htraced⟩ := exists_traced hc n
    exact htraced.versions ▸ Item.versions_pairwise htraced.ordered
  refine ⟨item_ne_error hc, horder, fun n => ?_, fun n => ?_, fun n => ?_, fun n hnone => ?_⟩
  · refine List.pairwise_map.mpr ((horder n).imp ?_)
    rintro v w hbefore heq
    obtain ⟨hkey, hid⟩ := Prod.mk.inj heq
    rcases hbefore with hlt | ⟨_, holder⟩
    · exact absurd hkey (ne_of_lt (before_iff_lt.mp hlt))
    · rw [hid] at holder
      exact older_asymm (hc.fresh n).distinct holder holder
  · obtain ⟨items, htraced⟩ := exists_traced hc n
    exact htraced.commonPrefixes ▸ Item.commons_nodup htraced.ordered
  · obtain ⟨items, htraced⟩ := exists_traced hc n
    exact htraced.versions ▸ Item.latest_pairwise htraced.ordered
  · obtain ⟨m, items, hm, hends⟩ := exists_ends_of_item_eq_none hc hnone
    have htraced := hends.traced hc hm
    refine ⟨fun key versionId hwants hgroup hstays => ?_, fun key common hwants hgroup hstays => ?_⟩
    · rw [htraced.versions]
      constructor
      · rintro ⟨_, hv, hkey, hid⟩ ⟨i, hcut⟩
        obtain ⟨w, hw, rfl⟩ := List.mem_map.mp hv
        exact hends.cutOff hc hcut w (Item.mem_versions.mp hw) hkey hid
      · intro hnot
        obtain ⟨w, hw, hfound⟩ := (hends.accounts hc hwants hgroup hstays).resolve_right hnot
        exact ⟨w.normalize, List.mem_map_of_mem (Item.mem_versions.mpr hw), hfound⟩
    · rw [htraced.commonPrefixes, Item.mem_commons]
      exact hends.common_mem hc hwants hgroup hstays

/-- After the first page of the sample walk its last version is removed and a newer
one is written. -/
def disturbed : Course :=
  sample fun n =>
    if n = 0 then
      [.removeVersion "photos" "a" "i5", .putObject none "photos" "a" 8 ⟨"i7", .epoch, "e7"⟩]
    else []

theorem log_disturbed (n : Nat) : disturbed.log (n + 1) = disturbed.log 1 := by
  induction n with
  | zero => rfl
  | succ n ih =>
      have hquiet : disturbed.writes (n + 1) = [] := rfl
      rw [log, ih, hquiet, List.append_nil]

/-- The older version of `a` is cut off, and the rest is shown. -/
theorem walk_between_writes_disturbed :
    (disturbed.turn 2).item = none ∧
      (¬ ∃ v ∈ (disturbed.pages 2).flatMap (·.versions), v.key = "a" ∧ v.versionId = "i2") ∧
      "b/" ∈ (disturbed.pages 2).flatMap (·.commonPrefixes) := by
  have hfresh (n : Nat) : (disturbed.log n).Fresh := by
    cases n with
    | zero => exact ⟨by decide, by decide⟩
    | succ n => exact log_disturbed n ▸ ⟨by decide, by decide⟩
  have hbucket (i : Nat) :
      disturbed.bucket i = disturbed.bucket 0 ∨ disturbed.bucket i = disturbed.bucket 1 := by
    cases i with
    | zero => exact Or.inl rfl
    | succ i => exact Or.inr (by rw [bucket, log_disturbed]; rfl)
  have hover : (disturbed.turn 2).item = none := Option.isNone_iff_eq_none.mp (by decide)
  obtain ⟨-, -, -, -, -, hcomplete⟩ := walk_between_writes (sample_admissible hfresh)
  obtain ⟨hversions, hcommons⟩ := hcomplete 2 hover
  refine ⟨hover, fun hfound => ?_, hcommons "b/1" "b/" (by decide) (by decide) fun i _ => ?_⟩
  · refine (hversions "a" "i2" (by decide) (by decide) fun i _ => ?_).mp hfound ⟨0, ?_⟩
    · rcases hbucket i with heq | heq
      · exact heq ▸ (by decide : (disturbed.bucket 0).holds "a" "i2" = true)
      · exact heq ▸ (by decide : (disturbed.bucket 1).holds "a" "i2" = true)
    · exact ⟨(disturbed.page? 0).get (by decide),
        { Version.object "a" "i5" .epoch "e5" 5 with isLatest := true }, (Option.some_get _).symm,
        by decide, by decide, rfl, by
          decide, (by decide : ["i2", "i5"].Sublist (disturbed.log 1).drawn)⟩
  · rcases hbucket i with heq | heq
    · exact heq ▸ (by decide : "b/1" ∈ (disturbed.bucket 0).map Prod.fst)
    · exact heq ▸ (by decide : "b/1" ∈ (disturbed.bucket 1).map Prod.fst)

end Course

end VersionedBucket
