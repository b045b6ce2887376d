import VersionedBucket.Proofs.Walk.Loop
import Mathlib.Data.List.Chain

/-! # How a walk treats its lister

A walk is safe to drive against any lister, also one that answers with bad pages or never completes
a listing. It asks only for what passes the test of a request, it never asks twice in a row from the
same place, and once it has reported a fault or come to an end it asks nothing any more. What a
lister is asked is what a lister writes down that otherwise does the same.
-/

namespace VersionedBucket

variable {σ : Type}

/-- A lister that writes down what it is asked, oldest first, and otherwise does the same. -/
def Lister.recording (lister : Lister σ) : Lister (σ × List Request) := fun r before =>
  ((lister r before.1).1, (lister r before.1).2, before.2 ++ [r])

namespace Request

/-- Where a request starts. -/
def place (r : Request) : Option String × Option String := (r.keyMarker, r.versionIdMarker)

/-- The request passes its test. -/
def isValid (r : Request) : Bool := r.validate.toBool

theorem isValid_iff {r : Request} : r.isValid = true ↔ r.validate = .ok () := by
  unfold isValid
  cases r.validate <;> simp [Except.toBool]

theorem send_recording (r : Request) (lister : Lister σ) (state : σ) (asked : List Request) :
    r.send lister.recording (state, asked) =
      ((r.send lister state).1, (r.send lister state).2,
        asked ++ if r.isValid then [r] else []) := by
  unfold send isValid
  cases r.validate <;> simp [Except.toBool, Lister.recording]

/-- A page never leads back to the place it was asked for. -/
theorem place_next? {r next : Request} {p : Page} (hnext : r.next? p = .ok (some next)) :
    r.place ≠ next.place := by
  obtain ⟨-, cursor, -, hstarts, rfl⟩ := next?_eq_some_iff.mp hnext
  intro hplace
  obtain ⟨hkey, hid⟩ := Prod.mk.inj hplace
  simp [startsAt, hkey, hid, movedTo] at hstarts

@[simp] theorem place_resized (r : Request) (size : Option UInt16) :
    (r.resized size).place = r.place := by
  simp [place]

end Request

namespace Walk

/-! ## What is sent -/

/-- Writing down what a lister is asked changes nothing else, and what is written down is what is
sent and passes its test. -/
theorem calls_recording {w : Walk} (hw : w.Coherent) (lister : Lister σ) (state : σ)
    (asked : List Request) (sizes : List (Option UInt16)) :
    w.calls lister.recording (state, asked) sizes =
      { results := (w.calls lister state sizes).results
        walk := (w.calls lister state sizes).walk
        state := ((w.calls lister state sizes).state,
          asked ++ (w.sends lister state sizes).filter (·.isValid)) } := by
  induction sizes generalizing w state asked with
  | nil => simp [calls, sends]
  | cons size sizes ih =>
      have hcoherent := coherent_next hw lister size state
      simp only [calls, sends]
      cases hdue : w.due? size with
      | none =>
          obtain ⟨hitem, hwalk, hstate⟩ := next_of_due_none hw hdue lister state
          obtain ⟨hitem', hwalk', hstate'⟩ :=
            next_of_due_none hw hdue lister.recording (state, asked)
          rw [hwalk] at hcoherent
          rw [hitem, hwalk, hstate, hitem', hwalk', hstate', ih hcoherent]
          simp
      | some r =>
          obtain ⟨hitem, hwalk, hstate⟩ := next_of_due hdue lister state
          obtain ⟨hitem', hwalk', hstate'⟩ := next_of_due hdue lister.recording (state, asked)
          rw [hwalk] at hcoherent
          rw [r.send_recording] at hitem' hwalk' hstate'
          rw [hitem, hwalk, hstate, hitem', hwalk', hstate', ih hcoherent]
          cases hvalid : r.isValid <;> simp [hvalid]

/-- Every request that is sent counts as a page fetched. -/
theorem pagesFetched_calls {w : Walk} (hw : w.Coherent) (lister : Lister σ) (state : σ)
    (sizes : List (Option UInt16)) :
    (w.calls lister state sizes).walk.pagesFetched =
      w.pagesFetched + (w.sends lister state sizes).length := by
  induction sizes generalizing w state with
  | nil => rfl
  | cons size sizes ih =>
      have hcoherent := coherent_next hw lister size state
      simp only [calls, sends, ih hcoherent, List.length_append]
      cases hdue : w.due? size with
      | none =>
          rw [(next_of_due_none hw hdue lister state).2.1]
          simp
      | some r =>
          rw [(next_of_due hdue lister state).2.1, pagesFetched_answered]
          simp only [Option.toList_some, List.length_singleton]
          omega

/-- A walk under a limit keeps to it. -/
structure Within (limit : UInt64) (w : Walk) : Prop where
  coherent : w.Coherent
  limited : ∀ r ∈ w.request, r.settings.maxPages = some limit
  fetched : w.pagesFetched ≤ limit.toNat

theorem Within.next {limit : UInt64} {w : Walk} (hw : w.Within limit) (lister : Lister σ)
    (size : Option UInt16) (state : σ) : (w.next lister size state).walk.Within limit := by
  refine ⟨coherent_next hw.coherent lister size state, ?_, ?_⟩
  · intro next hnext
    cases hdue : w.due? size with
    | none =>
        rw [(next_of_due_none hw.coherent hdue lister state).2.1] at hnext
        cases hnext
    | some r =>
        rw [(next_of_due hdue lister state).2.1] at hnext
        obtain ⟨page, -, hpage⟩ := request_answered hnext
        obtain ⟨request, hrequest, -, -, rfl⟩ := due?_eq_some_iff.mp hdue
        rw [Request.settings_next? hpage, Request.settings_resized]
        exact hw.limited request hrequest
  · cases hdue : w.due? size with
    | none =>
        rw [(next_of_due_none hw.coherent hdue lister state).2.1]
        exact hw.fetched
    | some r =>
        obtain ⟨request, hrequest, -, hroom, -⟩ := due?_eq_some_iff.mp hdue
        rw [(next_of_due hdue lister state).2.1, pagesFetched_answered]
        have hlt : w.pagesFetched < limit.toNat := by
          simpa [isExhausted, hw.limited request hrequest] using hroom
        exact hlt

theorem within_start {r : Request} {limit : UInt64} (hlimit : r.settings.maxPages = some limit) :
    (start r).Within limit := by
  refine ⟨coherent_start r, ?_, Nat.zero_le _⟩
  intro q hq
  obtain rfl := Option.some.inj hq
  exact hlimit

/-- Under a limit, no more pages are ever counted than it allows. -/
theorem pagesFetched_le_limit {r : Request} {limit : UInt64}
    (hlimit : r.settings.maxPages = some limit) (lister : Lister σ) (state : σ)
    (sizes : List (Option UInt16)) :
    ((start r).calls lister state sizes).walk.pagesFetched ≤ limit.toNat :=
  (calls_preserve (Within limit) (fun _ size state hw => hw.next lister size state)
    (within_start hlimit) state sizes).fetched

/-- A call sends at most one request. -/
theorem length_sends_le (w : Walk) (lister : Lister σ) (state : σ) (sizes : List (Option UInt16)) :
    (w.sends lister state sizes).length ≤ sizes.length := by
  induction sizes generalizing w state with
  | nil => exact Nat.le_refl 0
  | cons size sizes ih =>
      have hone : (w.due? size).toList.length ≤ 1 := by cases w.due? size <;> simp
      have hrest := ih (w.next lister size state).walk (w.next lister size state).state
      simp only [sends, List.length_append, List.length_cons]
      omega

/-- The count of pages never outgrows sixty-four bits, unless there is no limit and as many calls
are made as sixty-four bits count. -/
theorem pagesFetched_lt_size (r : Request) (lister : Lister σ) (state : σ)
    (sizes : List (Option UInt16))
    (hbound : r.settings.maxPages.isSome = true ∨ sizes.length < UInt64.size) :
    ((start r).calls lister state sizes).walk.pagesFetched < UInt64.size := by
  rcases hbound with hlimited | hfew
  · obtain ⟨limit, hlimit⟩ := Option.isSome_iff_exists.mp hlimited
    exact (pagesFetched_le_limit hlimit lister state sizes).trans_lt limit.toNat_lt_size
  · rw [pagesFetched_calls (coherent_start r), start, Nat.zero_add]
    exact (length_sends_le _ lister state sizes).trans_lt hfew

/-- Two requests that are sent one after the other start from different places. -/
theorem isChain_sends {w : Walk} (hw : w.Coherent) (last : Option Request)
    (hlast : ∀ r ∈ last, ∀ next ∈ w.request, r.place ≠ next.place) (lister : Lister σ) (state : σ)
    (sizes : List (Option UInt16)) :
    (last.toList ++ w.sends lister state sizes).IsChain fun r next => r.place ≠ next.place := by
  induction sizes generalizing w last state with
  | nil => cases last <;> simp [sends]
  | cons size sizes ih =>
      have hcoherent := coherent_next hw lister size state
      simp only [sends]
      cases hdue : w.due? size with
      | none =>
          apply ih hcoherent last
          intro r _ next hnext
          rw [(next_of_due_none hw hdue lister state).2.1] at hnext
          cases hnext
      | some r =>
          have htail := ih hcoherent (some r) (by
            intro r' hr' next hnext
            obtain rfl := Option.some.inj hr'
            rw [(next_of_due hdue lister state).2.1] at hnext
            obtain ⟨page, -, hpage⟩ := request_answered hnext
            exact Request.place_next? hpage) (w.next lister size state).state
          cases last with
          | none => exact htail
          | some before =>
              refine List.isChain_cons_cons.mpr ⟨?_, htail⟩
              obtain ⟨request, hrequest, -, -, rfl⟩ := due?_eq_some_iff.mp hdue
              rw [Request.place_resized]
              exact hlast before rfl request hrequest

/-- What is sent passes its test, but for a request at the very end that is refused. -/
theorem sends_valid {w : Walk} (hw : w.Coherent) (lister : Lister σ) (state : σ)
    (sizes : List (Option UInt16)) :
    (w.sends lister state sizes).filter (·.isValid) = w.sends lister state sizes ∨
      ∃ r cause,
        w.sends lister state sizes = (w.sends lister state sizes).filter (·.isValid) ++ [r] ∧
        r.validate = .error cause ∧
          some (.error (.invalid cause)) ∈ (w.calls lister state sizes).results := by
  induction sizes generalizing w state with
  | nil => exact Or.inl rfl
  | cons size sizes ih =>
      have hcoherent := coherent_next hw lister size state
      simp only [sends, calls]
      cases hdue : w.due? size with
      | none =>
          have hdone : (w.next lister size state).walk.isDone = true :=
            (next_of_due_none hw hdue lister state).2.1 ▸ isDone_closed w
          exact Or.inl (by simp [sends_of_isDone hdone])
      | some r =>
          obtain ⟨hitem, hwalk, -⟩ := next_of_due hdue lister state
          cases hvalid : r.validate with
          | ok _ =>
              have hpasses : r.isValid = true := Request.isValid_iff.mpr hvalid
              rcases ih hcoherent (w.next lister size state).state with
                hall | ⟨last, cause, hlast, hrefused, hmem⟩
              · exact Or.inl (by simp [hpasses, hall])
              · refine Or.inr ⟨last, cause, ?_, hrefused, List.mem_cons_of_mem _ hmem⟩
                simpa [hpasses] using hlast
          | error cause =>
              -- a refused request ends the walk, so nothing is sent after it
              have hanswer : (r.send lister state).1 = .error (.invalid cause) := by
                simp [Request.send, hvalid]
              have hfails : r.isValid = false := by simp [Request.isValid, hvalid, Except.toBool]
              have hdone : (w.next lister size state).walk.isDone = true := by
                rw [hwalk, hanswer]; rfl
              refine Or.inr ⟨r, cause, ?_, hvalid, ?_⟩
              · simp [sends_of_isDone hdone, hfails]
              · rw [hitem, hanswer]
                exact List.mem_cons_self

/-! ## What is returned -/

/-- Pages come first, then a fault if there is one, and then nothing. -/
theorem exists_results {w : Walk} (hw : w.Coherent) (lister : Lister σ) (state : σ)
    (sizes : List (Option UInt16)) :
    ∃ pages fault rest, (w.calls lister state sizes).results =
      List.map (fun page => some (.ok page)) pages ++ (Option.toList fault).map (fun cause =>
        some (.error cause)) ++
        List.replicate rest none := by
  induction sizes generalizing w state with
  | nil => exact ⟨[], none, 0, rfl⟩
  | cons size sizes ih =>
      simp only [calls]
      by_cases hpage : ∃ page, (w.next lister size state).item = some (.ok page)
      · obtain ⟨page, hitem⟩ := hpage
        obtain ⟨pages, fault, rest, hresults⟩ :=
          ih (coherent_next hw lister size state) (w.next lister size state).state
        exact ⟨page :: pages, fault, rest, by simp [hitem, hresults]⟩
      -- anything but a page is the last that comes
      · have hdone := isDone_next hw (not_exists.mp hpage)
        rw [calls_of_isDone hdone]
        cases hitem : (w.next lister size state).item with
        | none => exact ⟨[], none, sizes.length + 1, by simp [List.replicate_succ]⟩
        | some answer =>
            cases answer with
            | ok page => exact absurd ⟨page, hitem⟩ hpage
            | error cause => exact ⟨[], some cause, sizes.length, by simp⟩

/-- Once a call has returned anything but a page, the walk is over. -/
theorem isDone_calls {w : Walk} (hw : w.Coherent) {lister : Lister σ} {state : σ}
    {sizes : List (Option UInt16)} {result : Option (Except Fault Page)}
    (hresult : result ∈ (w.calls lister state sizes).results)
    (hpage : ∀ page, result ≠ some (.ok page)) :
    (w.calls lister state sizes).walk.isDone = true := by
  induction sizes generalizing w state with
  | nil => cases hresult
  | cons size sizes ih =>
      simp only [calls] at hresult ⊢
      rcases List.mem_cons.mp hresult with rfl | hresult
      · have hdone := isDone_next hw hpage
        rw [calls_of_isDone hdone]
        exact hdone
      · exact ih (coherent_next hw lister size state) hresult

end Walk

/-! ## The theorem -/

namespace Request

/-- Calls on a walk from a request on, with the requests that reach the lister written down. -/
def driven (r : Request) (lister : Lister σ) (state : σ) (sizes : List (Option UInt16)) :
    Walk.Calls (σ × List Request) :=
  (Walk.start r).calls lister.recording (state, []) sizes

/-- The requests that reach the lister, oldest first. -/
def asked (r : Request) (lister : Lister σ) (state : σ) (sizes : List (Option UInt16)) :
    List Request :=
  (r.driven lister state sizes).state.2

end Request

namespace Walk

/-- What holds of all calls on a walk, however its lister answers and whatever page sizes the
calls are given. -/
structure Orderly (r : Request) (lister : Lister σ) (state : σ) : Prop where
  /-- Writing down what reaches the lister changes nothing else. -/
  recorded : ∀ sizes,
    (r.driven lister state sizes).results = ((start r).calls lister state sizes).results ∧
    (r.driven lister state sizes).walk = ((start r).calls lister state sizes).walk
  /-- Pages come first, then at most one fault, and then nothing any more. -/
  results : ∀ sizes, ∃ pages fault rest, (r.driven lister state sizes).results =
    List.map (fun page => some (.ok page)) pages ++ (Option.toList fault).map (fun cause =>
      some (.error cause)) ++
      List.replicate rest none
  /-- After a fault or nothing the walk is over. -/
  ended : ∀ sizes, ∀ result ∈ (r.driven lister state sizes).results,
    (∀ page, result ≠ some (.ok page)) →
    (r.driven lister state sizes).walk.isDone = true
  /-- When the walk is over, calls return nothing, and nothing reaches the lister. -/
  silent : ∀ sizes, (r.driven lister state sizes).walk.isDone = true → ∀ more,
    (r.driven lister state (sizes ++ more)).results =
        (r.driven lister state sizes).results ++ List.replicate more.length none ∧
      r.asked lister state (sizes ++ more) = r.asked lister state sizes
  /-- A call reaches the lister at most once. -/
  once : ∀ sizes size, ∃ q : Option Request,
    r.asked lister state (sizes ++ [size]) = r.asked lister state sizes ++ q.toList
  /-- What reaches the lister passes the test of a request. -/
  valid : ∀ sizes, ∀ q ∈ r.asked lister state sizes, q.validate = .ok () ∧
    BucketName.check .strict q.bucket = .ok () ∧ 1 ≤ q.pageSize ∧ q.pageSize ≤ 1000
  /-- Two requests that reach the lister one after the other start from different places. -/
  advances : ∀ sizes, (r.asked lister state sizes).IsChain fun q next =>
    (q.keyMarker, q.versionIdMarker) ≠ (next.keyMarker, next.versionIdMarker)
  /-- Pages count as fetched when a request is sent. Every request that is sent reaches the lister,
  unless the walk ends with one that fails its test. -/
  fetched : ∀ sizes,
    (r.driven lister state sizes).walk.pagesFetched = ((start r).sends lister state sizes).length ∧
      ((start r).sends lister state sizes = r.asked lister state sizes ∨
        ∃ q cause, (start r).sends lister state sizes = r.asked lister state sizes ++ [q] ∧
          q.validate = .error cause ∧
            some (.error (.invalid cause)) ∈ (r.driven lister state sizes).results)
  /-- A limit on pages is kept at all times, and a stream has at most one item more. -/
  limited : ∀ limit, r.settings.maxPages = some limit →
    (∀ sizes, (r.driven lister state sizes).walk.pagesFetched ≤ limit.toNat) ∧
      ∀ count, ((start r).take lister state count).items.length ≤ limit.toNat + 1

theorem driven_eq (r : Request) (lister : Lister σ) (state : σ) (sizes : List (Option UInt16)) :
    r.driven lister state sizes =
      { results := ((start r).calls lister state sizes).results
        walk := ((start r).calls lister state sizes).walk
        state := (((start r).calls lister state sizes).state,
          ((start r).sends lister state sizes).filter (·.isValid)) } := by
  rw [Request.driven, calls_recording (coherent_start r), List.nil_append]

theorem results_driven (r : Request) (lister : Lister σ) (state : σ)
    (sizes : List (Option UInt16)) :
    (r.driven lister state sizes).results = ((start r).calls lister state sizes).results := by
  rw [driven_eq]

theorem walk_driven (r : Request) (lister : Lister σ) (state : σ) (sizes : List (Option UInt16)) :
    (r.driven lister state sizes).walk = ((start r).calls lister state sizes).walk := by
  rw [driven_eq]

theorem asked_eq (r : Request) (lister : Lister σ) (state : σ) (sizes : List (Option UInt16)) :
    r.asked lister state sizes = ((start r).sends lister state sizes).filter (·.isValid) := by
  rw [Request.asked, driven_eq]

/-- A walk is orderly against every lister. -/
theorem orderly (r : Request) (lister : Lister σ) (state : σ) : Orderly r lister state where
  recorded sizes := ⟨results_driven r lister state sizes, walk_driven r lister state sizes⟩
  results sizes := by
    rw [results_driven]
    exact exists_results (coherent_start r) lister state sizes
  ended sizes result hresult hpage := by
    rw [results_driven] at hresult
    rw [walk_driven]
    exact isDone_calls (coherent_start r) hresult hpage
  silent sizes hdone more := by
    rw [walk_driven] at hdone
    constructor
    · simp only [results_driven, calls_append, calls_of_isDone hdone]
    · rw [asked_eq, asked_eq, sends_append, sends_of_isDone hdone, List.append_nil]
  once sizes size := by
    refine ⟨(((start r).calls lister state sizes).walk.due? size).filter (·.isValid), ?_⟩
    rw [asked_eq, asked_eq, sends_append, List.filter_append, sends, sends, List.append_nil]
    cases ((start r).calls lister state sizes).walk.due? size with
    | none => rfl
    | some q => cases hvalid : q.isValid <;> simp [hvalid, Option.filter]
  valid sizes q hq := by
    rw [asked_eq] at hq
    have hvalid := Request.isValid_iff.mp (List.mem_filter.mp hq).2
    exact ⟨hvalid, Request.validate_eq_ok_iff.mp hvalid⟩
  advances sizes := by
    have hchain := isChain_sends (coherent_start r) none (by simp) lister state sizes
    rw [Option.toList_none, List.nil_append] at hchain
    rw [asked_eq]
    rcases sends_valid (coherent_start r) lister state sizes with hall | ⟨last, _, hlast, -⟩
    · rw [hall]
      exact hchain
    · rw [hlast] at hchain
      exact hchain.left_of_append
  fetched sizes := by
    rw [asked_eq, walk_driven, results_driven]
    refine ⟨?_, ?_⟩
    · rw [pagesFetched_calls (coherent_start r)]
      exact Nat.zero_add _
    · rcases sends_valid (coherent_start r) lister state sizes with hall | hrefused
      · exact Or.inl hall.symm
      · exact Or.inr hrefused
  limited limit hlimit := by
    constructor
    · intro sizes
      rw [walk_driven]
      exact pagesFetched_le_limit hlimit lister state sizes
    · intro count
      have hsends : (Request.affordable r.settings.maxPages 0 (List.replicate count none)).length ≤
          limit.toNat := by
        rw [hlimit, Request.affordable, Nat.sub_zero]
        exact List.length_take_le _ _
      have hlength := r.length_loop_le lister state
        (Request.affordable r.settings.maxPages 0 (List.replicate count none))
      rw [items_take_eq_loop, List.length_take]
      omega

/-- A page size that is refused ends the walk: it counts as a page fetched, but nothing reaches the
lister any more. -/
theorem orderly_scripted :
    (Request.driven { bucket := "photos" } .scripted answers
        [some 5, some 0]).walk.pagesFetched = 2 ∧
      ∀ more, Request.asked { bucket := "photos" } .scripted answers ([some 5, some 0] ++ more) =
        [{ bucket := "photos", maxKeys := some 5 }] := by
  have hwalk := orderly { bucket := "photos" } .scripted answers
  have hrefused := List.mem_cons_of_mem answers[0]?
    (List.mem_singleton_self (some (Except.error (Fault.invalid (.maxKeys 0)))))
  have hdone := hwalk.ended [some 5, some 0] _ hrefused (by simp)
  refine ⟨rfl, fun more => ?_⟩
  rw [(hwalk.silent _ hdone more).2]
  rfl

end Walk

end VersionedBucket
