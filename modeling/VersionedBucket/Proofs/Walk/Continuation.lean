import VersionedBucket.Proofs.Walk.Conduct

/-! # Moving on from a page

From a request and a page that answers it follows what comes next: nothing, a fault, or a request
that starts where the page goes on. That request is the old one but for its markers, so it passes
the same test and is written with the same parameters. The page that led to it is of no further use
to it.
-/

namespace VersionedBucket

/-- Where a page goes on if more pages follow: behind the key that it names, or else behind its last
version. A version id that it names without a key says nothing. -/
inductive Page.GoesOn (p : Page) : Request.Cursor → Prop where
  | named {key : String} (hkey : p.nextKeyMarker = some key) : GoesOn p ⟨key, p.nextVersionIdMarker⟩
  | shown {earlier : List Version} {last : Version} (hunnamed : p.nextKeyMarker = none)
      (hlast : p.versions = earlier ++ [last]) : GoesOn p ⟨last.key, some last.versionId⟩

/-- The page names no key and shows no version. -/
def Page.IsSilent (p : Page) : Prop := p.nextKeyMarker = none ∧ p.versions = []

/-- The markers that stand for a place. -/
def Request.Cursor.markers (cursor : Request.Cursor) : Option String × Option String :=
  (some cursor.key, cursor.versionId)

/-- Parameters with those of the markers behind them. -/
def Query.withMarkers (q : Query) (markers : Option String × Option String) : Query :=
  (q.add? "key-marker" markers.1).add? "version-id-marker" markers.2

namespace Page

variable {p : Page}

theorem cursor?_eq_some_iff {cursor : Request.Cursor} :
    p.cursor? = some cursor ↔ p.GoesOn cursor := by
  constructor
  · intro hcursor
    unfold cursor? at hcursor
    split at hcursor
    next key hkey =>
      cases hcursor
      exact .named hkey
    next hunnamed =>
      obtain ⟨last, hlast, rfl⟩ := Option.map_eq_some_iff.mp hcursor
      obtain ⟨earlier, hversions⟩ := List.getLast?_eq_some_iff.mp hlast
      exact .shown hunnamed hversions
  · rintro (hkey | ⟨hunnamed, hlast⟩)
    · simp only [cursor?, hkey]
    · simp only [cursor?, hunnamed, hlast, List.getLast?_concat, Option.map_some]

theorem cursor?_eq_none_iff : p.cursor? = none ↔ p.IsSilent := by
  unfold cursor? IsSilent
  cases p.nextKeyMarker with
  | some key => simp
  | none => simp

/-- A page either goes on somewhere or is silent. -/
theorem goesOn_or_isSilent (p : Page) : (∃ cursor, p.GoesOn cursor) ∨ p.IsSilent := by
  cases hcursor : p.cursor? with
  | some cursor => exact .inl ⟨cursor, cursor?_eq_some_iff.mp hcursor⟩
  | none => exact .inr (cursor?_eq_none_iff.mp hcursor)

end Page

namespace Request

variable {r next : Request} {p : Page} {cursor : Cursor}

theorem startsAt_iff : r.startsAt cursor = true ↔ r.place = cursor.markers := by
  simp only [startsAt, Bool.and_eq_true, beq_iff_eq, place, Cursor.markers, Prod.mk.injEq]

theorem place_movedTo (r : Request) (cursor : Cursor) :
    (r.movedTo cursor).place = cursor.markers := rfl

theorem next?_of_complete (hcomplete : p.isTruncated = false) : r.next? p = .ok none := by
  simp only [next?, hcomplete, Bool.false_eq_true, if_false]

theorem next?_of_isSilent (htruncated : p.isTruncated = true) (hsilent : p.IsSilent) :
    r.next? p = .error (.noContinuation r.bucket) := by
  simp only [next?, htruncated, if_true, Page.cursor?_eq_none_iff.mpr hsilent]

theorem next?_of_goesOn (htruncated : p.isTruncated = true) (hgoesOn : p.GoesOn cursor) :
    r.next? p = if r.place = cursor.markers then .error (.stalled r.bucket cursor.key)
      else .ok (some (r.movedTo cursor)) := by
  simp only [next?, htruncated, if_true, Page.cursor?_eq_some_iff.mpr hgoesOn, startsAt_iff]

theorem next?_of_stalls (htruncated : p.isTruncated = true) (hgoesOn : p.GoesOn cursor)
    (hplace : r.place = cursor.markers) : r.next? p = .error (.stalled r.bucket cursor.key) := by
  rw [next?_of_goesOn htruncated hgoesOn, if_pos hplace]

theorem next?_of_moves (htruncated : p.isTruncated = true) (hgoesOn : p.GoesOn cursor)
    (hplace : r.place ≠ cursor.markers) : r.next? p = .ok (some (r.movedTo cursor)) := by
  rw [next?_of_goesOn htruncated hgoesOn, if_neg hplace]

/-- What can come of a request and a page, and when. -/
inductive Outcome (r : Request) (p : Page) : Except Invalid (Option Request) → Prop where
  | complete (hcomplete : p.isTruncated = false) : Outcome r p (.ok none)
  | silent (htruncated : p.isTruncated = true) (hsilent : p.IsSilent) :
      Outcome r p (.error (.noContinuation r.bucket))
  | stalls (htruncated : p.isTruncated = true) {cursor : Cursor} (hgoesOn : p.GoesOn cursor)
      (hplace : r.place = cursor.markers) : Outcome r p (.error (.stalled r.bucket cursor.key))
  | moves (htruncated : p.isTruncated = true) {cursor : Cursor} (hgoesOn : p.GoesOn cursor)
      (hplace : r.place ≠ cursor.markers) : Outcome r p (.ok (some (r.movedTo cursor)))

theorem outcome_next? (r : Request) (p : Page) : Outcome r p (r.next? p) := by
  cases htruncated : p.isTruncated with
  | false =>
      rw [next?_of_complete htruncated]
      exact .complete htruncated
  | true =>
      obtain ⟨cursor, hgoesOn⟩ | hsilent := p.goesOn_or_isSilent
      · by_cases hplace : r.place = cursor.markers
        · rw [next?_of_stalls htruncated hgoesOn hplace]
          exact .stalls htruncated hgoesOn hplace
        · rw [next?_of_moves htruncated hgoesOn hplace]
          exact .moves htruncated hgoesOn hplace
      · rw [next?_of_isSilent htruncated hsilent]
        exact .silent htruncated hsilent

/-- The request without its markers. -/
def unmarked (r : Request) : Request := { r with keyMarker := none, versionIdMarker := none }

/-- Whether a request passes its test does not depend on its markers. -/
theorem validate_movedTo (r : Request) (cursor : Cursor) :
    (r.movedTo cursor).validate = r.validate := rfl

/-- The markers add their own parameters behind all others, and nothing else depends on them. -/
theorem query_eq_withMarkers (r : Request) :
    r.query = r.unmarked.query.map (·.withMarkers r.place) := by
  have hvalidate : r.unmarked.validate = r.validate := rfl
  unfold query
  rw [hvalidate]
  cases r.validate <;> rfl

/-- What a request that starts at a place has to do with the one before it. -/
structure Succeeds (next r : Request) (p : Page) (cursor : Cursor) : Prop where
  /-- Only the markers differ. -/
  same : next = { r with keyMarker := some cursor.key, versionIdMarker := cursor.versionId }
  validate : next.validate = r.validate
  /-- Before and after, the parameters are those of the request without markers and then those
  of its markers. -/
  query_before : r.query = r.unmarked.query.map (·.withMarkers r.place)
  query : next.query = r.unmarked.query.map (·.withMarkers cursor.markers)
  place : next.place ≠ r.place
  /-- The page that led to it would lead it to itself. -/
  stalls : next.next? p = .error (.stalled r.bucket cursor.key)

theorem succeeds_movedTo (htruncated : p.isTruncated = true) (hgoesOn : p.GoesOn cursor)
    (hplace : r.place ≠ cursor.markers) : (r.movedTo cursor).Succeeds r p cursor where
  same := rfl
  validate := r.validate_movedTo cursor
  query_before := r.query_eq_withMarkers
  query := (r.movedTo cursor).query_eq_withMarkers
  place := hplace.symm
  stalls := by
    rw [next?_of_goesOn htruncated hgoesOn, if_pos (r.place_movedTo cursor)]
    rfl

/-- A request is moved on exactly from truncated pages that go on somewhere else than where it
starts. If the page is silent there is nowhere to go, and if it goes on where the request starts the
listing would never end. -/
theorem next?_outcomes (r : Request) (p : Page) :
    (r.next? p = .ok none ↔ p.isTruncated = false) ∧
      (r.next? p = .error (.noContinuation r.bucket) ↔ p.isTruncated = true ∧ p.IsSilent) ∧
      (∀ key, r.next? p = .error (.stalled r.bucket key) ↔
        p.isTruncated = true ∧ ∃ cursor, p.GoesOn cursor ∧ r.place = cursor.markers ∧
          cursor.key = key) ∧
      (∀ next, r.next? p = .ok (some next) ↔
        p.isTruncated = true ∧ ∃ cursor, p.GoesOn cursor ∧ r.place ≠ cursor.markers ∧
          next = r.movedTo cursor) ∧
      ∀ next, r.next? p = .ok (some next) → ∃ cursor, p.GoesOn cursor ∧
        next.Succeeds r p cursor := by
  have houtcome := r.outcome_next? p
  refine ⟨⟨fun hnext => ?_, next?_of_complete⟩, ⟨fun hnext => ?_, ?_⟩, fun key =>
    ⟨fun hnext => ?_, ?_⟩,
    fun next => ⟨fun hnext => ?_, ?_⟩, fun next hnext => ?_⟩
  · rw [hnext] at houtcome
    cases houtcome with
    | complete hcomplete => exact hcomplete
  · rw [hnext] at houtcome
    cases houtcome with
    | silent htruncated hsilent => exact ⟨htruncated, hsilent⟩
  · rintro ⟨htruncated, hsilent⟩
    exact next?_of_isSilent htruncated hsilent
  · rw [hnext] at houtcome
    cases houtcome with
    | stalls htruncated hgoesOn hplace => exact ⟨htruncated, _, hgoesOn, hplace, rfl⟩
  · rintro ⟨htruncated, cursor, hgoesOn, hplace, rfl⟩
    exact next?_of_stalls htruncated hgoesOn hplace
  · rw [hnext] at houtcome
    cases houtcome with
    | moves htruncated hgoesOn hplace => exact ⟨htruncated, _, hgoesOn, hplace, rfl⟩
  · rintro ⟨htruncated, cursor, hgoesOn, hplace, rfl⟩
    exact next?_of_moves htruncated hgoesOn hplace
  · rw [hnext] at houtcome
    cases houtcome with
    | moves htruncated hgoesOn hplace =>
        exact ⟨_, hgoesOn, succeeds_movedTo htruncated hgoesOn hplace⟩

/-- A page with a lone version id, which says nothing, and two versions. -/
def loneIdSample : Page where
  bucket := "bucket"
  versions := [{ key := "a", versionId := "v1", lastModified := .epoch },
    { key := "b", versionId := "", lastModified := .epoch }]
  isTruncated := true
  nextVersionIdMarker := some "v9"

/-- A key marker alone is another place than the same key with an empty version id. -/
theorem next?_outcomes_loneIdSample :
    next? { bucket := "bucket", keyMarker := some "b" } loneIdSample =
        .ok (some { bucket := "bucket", keyMarker := some "b", versionIdMarker := some "" }) ∧
      ∃ cursor, loneIdSample.GoesOn cursor ∧
        Succeeds { bucket := "bucket", keyMarker := some "b", versionIdMarker := some "" }
          { bucket := "bucket", keyMarker := some "b" } loneIdSample cursor := by
  have hnext : next? { bucket := "bucket", keyMarker := some "b" } loneIdSample =
    .ok (some { bucket := "bucket", keyMarker := some "b", versionIdMarker := some "" }) := by
      decide
  exact ⟨hnext, (next?_outcomes _ _).2.2.2.2 _ hnext⟩

end Request

end VersionedBucket
