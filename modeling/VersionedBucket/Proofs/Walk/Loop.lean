import VersionedBucket.Proofs.Walk.Calls

/-! # A walk is a loop

Whoever follows a listing by hand sends a request, looks at the answer, and goes on with the request
that the page leads to. A walk returns what this loop yields, item by item and then nothing, also
when some calls change the page size. The walk reports a bad continuation one call after its page,
which is where it stands in the loop as well. A limit on pages cuts the loop in front of the first
send that goes beyond it.
-/

namespace VersionedBucket

variable {σ : Type}

namespace Request

/-- The loop that follows a listing by hand, with a page size or none for every send. It is cut in
front of the send for which the list has no entry. -/
def loop (r : Request) (lister : Lister σ) (state : σ) :
    List (Option UInt16) → List (Except Fault Page)
  | [] => []
  | size :: sizes =>
    match (r.resized size).send lister state with
    | (.error fault, _) => [.error fault]
    | (.ok page, state) =>
      .ok page ::
        match (r.resized size).next? page with
        | .error cause => [.error (.invalid cause)]
        | .ok none => []
        | .ok (some next) => next.loop lister state sizes

/-- The sends for which a limit on pages leaves room once some pages have been fetched. -/
def affordable (limit : Option UInt64) (fetched : Nat) (sizes : List (Option UInt16)) :
    List (Option UInt16) :=
  match limit with
  | none => sizes
  | some limit => sizes.take (limit.toNat - fetched)

/-- The same request under another limit on pages. -/
def limited (r : Request) (maxPages : Option UInt64) : Request :=
  { r with settings := { r.settings with maxPages } }

/-- A loop yields one item for each send, and the fault of a continuation. -/
theorem length_loop_le (r : Request) (lister : Lister σ) (state : σ)
    (sizes : List (Option UInt16)) :
    (r.loop lister state sizes).length ≤ sizes.length + 1 := by
  induction sizes generalizing r state with
  | nil => exact Nat.zero_le _
  | cons size sizes ih =>
      simp only [loop]
      split
      · simp
      · split
        · simp
        · simp
        next next _ => simpa using ih next _

theorem settings_next? {r next : Request} {p : Page} (hnext : r.next? p = .ok (some next)) :
    next.settings = r.settings := by
  obtain ⟨-, cursor, -, -, rfl⟩ := next?_eq_some_iff.mp hnext
  rfl

end Request

namespace Walk

theorem affordable_of_exhausted {w : Walk} {r : Request} (hlimit : w.isExhausted r = true)
    (sizes : List (Option UInt16)) :
    Request.affordable r.settings.maxPages w.pagesFetched sizes = [] := by
  unfold isExhausted at hlimit
  cases hmax : r.settings.maxPages with
  | none => simp [hmax] at hlimit
  | some limit =>
      simp only [hmax, decide_eq_true_eq] at hlimit
      simp [Request.affordable, Nat.sub_eq_zero_of_le hlimit]

theorem affordable_cons {w : Walk} {r : Request} (hlimit : w.isExhausted r = false)
    (size : Option UInt16) (sizes : List (Option UInt16)) :
    Request.affordable r.settings.maxPages w.pagesFetched (size :: sizes) =
      size :: Request.affordable r.settings.maxPages (w.pagesFetched + 1) sizes := by
  unfold isExhausted at hlimit
  cases hmax : r.settings.maxPages with
  | none => rfl
  | some limit =>
      simp only [hmax, decide_eq_false_iff_not] at hlimit
      have hroom : limit.toNat - w.pagesFetched = limit.toNat - (w.pagesFetched + 1) + 1 := by omega
      simp [Request.affordable, hroom]

/-- A walk that owes a fault reports it once. -/
theorem results_of_pending {w : Walk} {cause : Invalid} (hrequest : w.request = none)
    (hpending : w.pending = some cause) (lister : Lister σ) (state : σ)
    (sizes : List (Option UInt16)) :
    (w.calls lister state sizes).results =
      [some (.error (.invalid cause))].takeD sizes.length none := by
  cases sizes with
  | nil => rfl
  | cons size sizes =>
      have hdue : w.due? size = none := by simp [due?, hpending]
      obtain ⟨hitem, hwalk, -⟩ := next_of_due_none (Or.inr hrequest) hdue lister state
      simp [calls, hitem, hwalk, hpending, calls_of_isDone (isDone_closed w)]

/-- The results of calls on a walk that is under way are the items of its loop, and then nothing. -/
theorem results_calls {w : Walk} {r : Request} (hrequest : w.request = some r)
    (hpending : w.pending = none) (lister : Lister σ) (state : σ) (sizes : List (Option UInt16)) :
    (w.calls lister state sizes).results =
      ((r.loop lister state
        (Request.affordable r.settings.maxPages w.pagesFetched sizes)).map some).takeD
        sizes.length none := by
  induction sizes generalizing w r state with
  | nil => rfl
  | cons size sizes ih =>
      cases hlimit : w.isExhausted r with
      | true =>
          -- the walk is over, and the limit lets the loop send nothing
          have hdue : w.due? size = none := by simp [due?, hrequest, hpending, hlimit]
          obtain ⟨hitem, hwalk, -⟩ := next_of_due_none (Or.inl hpending) hdue lister state
          rw [affordable_of_exhausted hlimit]
          simp [calls, hitem, hwalk, hpending, calls_of_isDone (isDone_closed w), Request.loop]
      | false =>
          have hdue : w.due? size = some (r.resized size) := by
            simp [due?, hrequest, hpending, hlimit]
          obtain ⟨hitem, hwalk, hstate⟩ := next_of_due hdue lister state
          rw [affordable_cons hlimit, calls, hitem, hwalk, hstate, Request.loop]
          obtain ⟨answer, after⟩ := (r.resized size).send lister state
          cases answer with
          | error fault =>
              have hdone : (w.answered (r.resized size) (.error fault)).isDone = true := rfl
              simp [calls_of_isDone hdone]
          | ok page =>
              cases hnext : (r.resized size).next? page with
              | error cause =>
                  simp [answered, hnext, results_of_pending]
              | ok next =>
                  cases next with
                  | none =>
                      have hdone : (w.answered (r.resized size) (.ok page)).isDone = true := by
                        simp [answered, hnext, isDone]
                      simp [hnext, calls_of_isDone hdone]
                  | some next =>
                      have hsettings :=
                        (Request.settings_next? hnext).trans (r.settings_resized size)
                      simp [answered, hnext, ih, hsettings]

theorem reduceOption_takeD {α : Type} (items : List α) (count : Nat) :
    ((items.map some).takeD count none).reduceOption = items.take count := by
  induction count generalizing items with
  | zero => rfl
  | succ count ih =>
      cases items with
      | nil => simp [List.reduceOption]
      | cons item rest => simp [ih]

/-- A stream gives the items of its loop. -/
theorem items_take_eq_loop (r : Request) (lister : Lister σ) (state : σ) (count : Nat) :
    ((start r).take lister state count).items =
      (r.loop lister state
        (Request.affordable r.settings.maxPages 0 (List.replicate count none))).take count := by
  rw [items_take (coherent_start r), results_calls rfl rfl, List.length_replicate,
    reduceOption_takeD]
  rfl

end Walk

/-! ## Listers that do not look at the limit -/

namespace Request

theorem next?_limited (r : Request) (maxPages : Option UInt64) (p : Page) :
    (r.limited maxPages).next? p = (r.next? p).map (Option.map (limited · maxPages)) := by
  have hstarts (cursor : Cursor) : (r.limited maxPages).startsAt cursor = r.startsAt cursor := rfl
  unfold next?
  split
  · split
    · rfl
    next cursor _ =>
      rw [hstarts]
      split <;> rfl
  · rfl

theorem resized_limited (r : Request) (maxPages : Option UInt64) (size : Option UInt16) :
    (r.limited maxPages).resized size = (r.resized size).limited maxPages := by
  cases size <;> rfl

/-- If the lister does not look at the limit on pages, the loop is the same under every limit. -/
theorem loop_limited {lister : Lister σ}
    (hblind : ∀ r maxPages state, lister (r.limited maxPages) state = lister r state) (r : Request)
    (maxPages : Option UInt64) (state : σ) (sizes : List (Option UInt16)) :
    (r.limited maxPages).loop lister state sizes = r.loop lister state sizes := by
  induction sizes generalizing r state with
  | nil => rfl
  | cons size sizes ih =>
      have hsend : ((r.resized size).limited maxPages).send lister state =
          (r.resized size).send lister state := by
        have hvalidate : ((r.resized size).limited maxPages).validate = (r.resized size).validate :=
          rfl
        rw [send, send, hvalidate, hblind]
      rw [loop, loop, resized_limited, hsend]
      obtain ⟨answer, after⟩ := (r.resized size).send lister state
      cases answer with
      | error fault => rfl
      | ok page =>
          simp only [next?_limited]
          cases hnext : (r.resized size).next? page with
          | error cause => simp [Except.map]
          | ok next =>
              cases next with
              | none => simp [Except.map]
              | some next => simp [Except.map, ih]

end Request

/-! ## The theorem -/

namespace Walk

/-- Whatever the lister does, calls on a walk without a limit on pages return the items of the loop
that follows the listing by hand, each call changing the page size if it is given one, and a stream
gives the items of the loop whose page size stays as it is. Under a limit the loop is cut in front
of the first send beyond it. If the lister does not look at the limit, this is the loop that it has
without a limit as well. -/
theorem calls_eq_loop (r : Request) (lister : Lister σ) (state : σ) :
    (r.settings.maxPages = none →
      (∀ sizes, ((start r).calls lister state sizes).results =
        ((r.loop lister state sizes).map some).takeD sizes.length none) ∧
      ∀ count, ((start r).take lister state count).items =
        (r.loop lister state (List.replicate count none)).take count) ∧
    (∀ limit, r.settings.maxPages = some limit →
      (∀ sizes, ((start r).calls lister state sizes).results =
        ((r.loop lister state (sizes.take limit.toNat)).map some).takeD sizes.length none) ∧
      ∀ count, ((start r).take lister state count).items =
        (r.loop lister state (List.replicate (min limit.toNat count) none)).take count) ∧
    ((∀ q maxPages state, lister (q.limited maxPages) state = lister q state) → ∀ limit sizes,
      ((start (r.limited (some limit))).calls lister state sizes).results =
        (((r.limited none).loop lister state (sizes.take limit.toNat)).map some).takeD
          sizes.length none) := by
  have hcalls (q : Request) (sizes : List (Option UInt16)) :
      ((start q).calls lister state sizes).results =
        ((q.loop lister state (Request.affordable q.settings.maxPages 0 sizes)).map some).takeD
          sizes.length none :=
    results_calls rfl rfl lister state sizes
  refine ⟨fun hlimit => ⟨fun sizes => ?_, fun count => ?_⟩,
    fun limit hlimit => ⟨fun sizes => ?_, fun count => ?_⟩, fun hblind limit sizes => ?_⟩
  · rw [hcalls, hlimit]
    rfl
  · rw [items_take_eq_loop, hlimit]
    rfl
  · rw [hcalls, hlimit]
    rfl
  · rw [items_take_eq_loop, hlimit, Request.affordable, Nat.sub_zero, List.take_replicate]
  · rw [hcalls, Request.loop_limited hblind, Request.loop_limited hblind]
    rfl

end Walk

/-- A lister that gives prepared answers, whatever it is asked. -/
def Lister.scripted : Lister (List (Except Fault Page)) := fun _ answers =>
  match answers with
  | [] => (.error (.lister "no answer is left"), [])
  | answer :: rest => (answer, rest)

namespace Walk

/-- The second page of these does not say where the listing goes on. -/
def answers : List (Except Fault Page) :=
  [.ok { bucket := "photos", isTruncated := true, nextKeyMarker := some "b" },
    .ok { bucket := "photos", isTruncated := true }, .ok { bucket := "photos" }]

/-- The third call reports the fault of the second page, also where the limit leaves
no third page. -/
theorem calls_eq_loop_scripted :
    ((start { bucket := "photos" }).calls .scripted answers [some 5, none, none, none]).results =
        ((Request.loop { bucket := "photos" } .scripted answers [some 5, none, none, none]).map
          some).takeD 4 none ∧
      ((start { bucket := "photos", settings := { maxPages := some 2 } }).calls .scripted answers
          [some 5, none, none, none]).results =
        [answers[0]?, answers[1]?, some (.error (.invalid (.noContinuation "photos"))), none] ∧
      ((start { bucket := "photos", settings := { maxPages := some 1 } }).calls .scripted answers
        [some 5, none]).results =
        [answers[0]?, none] := by
  obtain ⟨hfree, -, hblind⟩ := calls_eq_loop { bucket := "photos" } .scripted answers
  obtain ⟨-, hlimit, -⟩ :=
    calls_eq_loop { bucket := "photos", settings := { maxPages := some 2 } } .scripted answers
  refine ⟨(hfree rfl).1 _, ?_, ?_⟩
  · rw [(hlimit 2 rfl).1]
    rfl
  · exact (hblind (fun _ _ _ => rfl) 1 [some 5, none]).trans (by rfl)

end Walk

end VersionedBucket
