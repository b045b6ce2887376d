import VersionedBucket.Walk
import Mathlib.Data.List.ReduceOption

/-! # Calls on a walk

A walk is driven from outside, by call after call, each with a page size or without one. A call
sends at most one request, and whether it does depends on the walk alone. What the walk becomes then
depends on the answer, and a walk that has nothing to send either owes a fault or is over. The
lister is arbitrary throughout.
-/

namespace VersionedBucket

variable {σ : Type}

namespace Request

/-- A page size that is given replaces the request's own. Nothing else changes. -/
def resized (r : Request) : Option UInt16 → Request
  | none => r
  | some size => { r with maxKeys := some size }

@[simp] theorem settings_resized (r : Request) (size : Option UInt16) :
    (r.resized size).settings = r.settings := by
  cases size <;> rfl

@[simp] theorem keyMarker_resized (r : Request) (size : Option UInt16) :
    (r.resized size).keyMarker = r.keyMarker := by
  cases size <;> rfl

@[simp] theorem versionIdMarker_resized (r : Request) (size : Option UInt16) :
    (r.resized size).versionIdMarker = r.versionIdMarker := by
  cases size <;> rfl

/-- A request is moved on to the place that a truncated page names or shows, which is never
its own place. -/
theorem next?_eq_some_iff {r next : Request} {p : Page} : r.next? p = .ok (some next) ↔
    p.isTruncated = true ∧ ∃ cursor, p.cursor? = some cursor ∧ r.startsAt cursor = false ∧
      next = r.movedTo cursor := by
  unfold next?
  cases p.isTruncated with
  | false => simp
  | true =>
      cases p.cursor? with
      | none => simp
      | some cursor =>
          cases hstarts : r.startsAt cursor with
          | true => simp [hstarts]
          | false => simp [hstarts, @eq_comm _ next]

end Request

namespace Walk

/-- The request that a call sends. It sends none if a fault is still to be reported, if the walk is
over, and if the pages are used up. -/
def due? (w : Walk) (size : Option UInt16) : Option Request :=
  match w.pending, w.request with
  | none, some r => if w.isExhausted r then none else some (r.resized size)
  | _, _ => none

/-- The walk with nothing more to send or to report. -/
def closed (w : Walk) : Walk := { request := none, pagesFetched := w.pagesFetched }

/-- The walk once a request has been answered. -/
def answered (w : Walk) (r : Request) : Except Fault Page → Walk
  | .error _ => { request := none, pagesFetched := w.pagesFetched + 1 }
  | .ok page =>
    match r.next? page with
    | .ok request => { request, pagesFetched := w.pagesFetched + 1 }
    | .error cause => { request := none, pending := some cause, pagesFetched := w.pagesFetched + 1 }

/-- A walk that owes a fault has no request left. -/
def Coherent (w : Walk) : Prop := w.pending = none ∨ w.request = none

/-- What calls on a walk come to: their results in order, and the walk and the
lister behind them. -/
structure Calls (σ : Type) where
  results : List (Option (Except Fault Page)) := []
  walk : Walk
  state : σ

/-- Calls on a walk, one for each entry of a list of page sizes. -/
def calls (w : Walk) (lister : Lister σ) (state : σ) : List (Option UInt16) → Calls σ
  | [] => { walk := w, state }
  | size :: sizes =>
    let turn := w.next lister size state
    let rest := turn.walk.calls lister turn.state sizes
    { rest with results := turn.item :: rest.results }

/-- The requests that calls send, in order, be they refused at once or reach the lister. -/
def sends (w : Walk) (lister : Lister σ) (state : σ) : List (Option UInt16) → List Request
  | [] => []
  | size :: sizes =>
    let turn := w.next lister size state
    (w.due? size).toList ++ turn.walk.sends lister turn.state sizes

/-! ## One call -/

theorem coherent_start (r : Request) : (start r).Coherent := Or.inl rfl

theorem coherent_closed (w : Walk) : w.closed.Coherent := Or.inl rfl

theorem coherent_answered (w : Walk) (r : Request) (answer : Except Fault Page) :
    (w.answered r answer).Coherent := by
  unfold answered
  split
  · exact Or.inl rfl
  · split
    · exact Or.inl rfl
    · exact Or.inr rfl

@[simp] theorem pagesFetched_closed (w : Walk) : w.closed.pagesFetched = w.pagesFetched := rfl

@[simp] theorem pagesFetched_answered (w : Walk) (r : Request) (answer : Except Fault Page) :
    (w.answered r answer).pagesFetched = w.pagesFetched + 1 := by
  unfold answered
  split
  · rfl
  · split <;> rfl

/-- A request that is left after an answer is the one that the page leads to. -/
theorem request_answered {w : Walk} {r next : Request} {answer : Except Fault Page}
    (hnext : (w.answered r answer).request = some next) :
    ∃ page, answer = .ok page ∧ r.next? page = .ok (some next) := by
  unfold answered at hnext
  split at hnext
  · cases hnext
  next page =>
    split at hnext
    next request hrequest => exact ⟨page, rfl, hnext ▸ hrequest⟩
    · cases hnext

theorem isDone_iff {w : Walk} : w.isDone = true ↔ w.request = none ∧ w.pending = none := by
  simp [isDone, Bool.and_eq_true]

theorem isDone_closed (w : Walk) : w.closed.isDone = true := rfl

theorem closed_of_isDone {w : Walk} (hdone : w.isDone = true) : w.closed = w := by
  obtain ⟨hrequest, hpending⟩ := isDone_iff.mp hdone
  obtain ⟨request, pending, pagesFetched⟩ := w
  simp only at hrequest hpending
  simp [closed, hrequest, hpending]

theorem due?_eq_some_iff {w : Walk} {size : Option UInt16} {r : Request} : w.due? size = some r ↔
    ∃ request ∈ w.request, w.pending = none ∧ w.isExhausted request = false ∧
      r = request.resized size := by
  unfold due?
  cases w.pending <;> cases w.request <;> simp [@eq_comm _ r]

/-- A call that sends a request returns the answer to it. -/
theorem next_of_due {w : Walk} {size : Option UInt16} {r : Request} (hdue : w.due? size = some r)
    (lister : Lister σ) (state : σ) :
    (w.next lister size state).item = some (r.send lister state).1 ∧
      (w.next lister size state).walk = w.answered r (r.send lister state).1 ∧
      (w.next lister size state).state = (r.send lister state).2 := by
  obtain ⟨request, hrequest, hpending, hlimit, rfl⟩ := due?_eq_some_iff.mp hdue
  have hresized : { request with maxKeys := size <|> request.maxKeys } = request.resized size := by
    cases size <;> rfl
  rw [Option.mem_def] at hrequest
  simp only [next, hpending, hrequest, hlimit, Bool.false_eq_true, if_false, hresized]
  cases hsend : (request.resized size).send lister state with
  | mk answer after => cases answer <;> exact ⟨rfl, rfl, rfl⟩

/-- A call that sends nothing reports the fault that the walk owes, if it owes one, and the
walk is over. -/
theorem next_of_due_none {w : Walk} (hw : w.Coherent) {size : Option UInt16}
    (hdue : w.due? size = none) (lister : Lister σ) (state : σ) :
    (w.next lister size state).item = w.pending.map (fun cause => .error (.invalid cause)) ∧
      (w.next lister size state).walk = w.closed ∧ (w.next lister size state).state = state := by
  obtain ⟨request, pending, pagesFetched⟩ := w
  cases pending with
  | some cause =>
      obtain rfl : request = none := hw.resolve_left (Option.some_ne_none cause)
      exact ⟨rfl, rfl, rfl⟩
  | none =>
      cases request with
      | none => exact ⟨rfl, rfl, rfl⟩
      | some r =>
          simp only [due?, ite_eq_left_iff, reduceCtorEq, imp_false, not_not] at hdue
          simp [next, hdue, closed]

theorem coherent_next {w : Walk} (hw : w.Coherent) (lister : Lister σ) (size : Option UInt16)
    (state : σ) :
    (w.next lister size state).walk.Coherent := by
  cases hdue : w.due? size with
  | none => exact (next_of_due_none hw hdue lister state).2.1 ▸ coherent_closed w
  | some r => exact (next_of_due hdue lister state).2.1 ▸ coherent_answered w r _

theorem due?_of_isDone {w : Walk} (hdone : w.isDone = true) (size : Option UInt16) :
    w.due? size = none := by
  obtain ⟨hrequest, hpending⟩ := isDone_iff.mp hdone
  simp [due?, hrequest, hpending]

theorem next_of_isDone {w : Walk} (hdone : w.isDone = true) (lister : Lister σ)
    (size : Option UInt16) (state : σ) :
    (w.next lister size state).item = none ∧ (w.next lister size state).walk = w ∧
      (w.next lister size state).state = state := by
  obtain ⟨hrequest, hpending⟩ := isDone_iff.mp hdone
  have hnext := next_of_due_none (Or.inl hpending) (due?_of_isDone hdone size) lister state
  rw [hpending, closed_of_isDone hdone] at hnext
  exact hnext

/-- Only a page keeps a walk going. -/
theorem isDone_next {w : Walk} (hw : w.Coherent) {lister : Lister σ} {size : Option UInt16}
    {state : σ} (hitem : ∀ page, (w.next lister size state).item ≠ some (.ok page)) :
    (w.next lister size state).walk.isDone = true := by
  cases hdue : w.due? size with
  | none => exact (next_of_due_none hw hdue lister state).2.1 ▸ isDone_closed w
  | some r =>
      obtain ⟨hresult, hwalk, -⟩ := next_of_due hdue lister state
      rw [hwalk]
      cases hanswer : (r.send lister state).1 with
      | error fault => rfl
      | ok page => exact absurd (hanswer ▸ hresult) (hitem page)

/-! ## Many calls -/

/-- What a call keeps true of a walk, calls keep true. -/
theorem calls_preserve (invariant : Walk → Prop) {lister : Lister σ}
    (hnext : ∀ w size state, invariant w → invariant (w.next lister size state).walk) {w : Walk}
    (hw : invariant w) (state : σ) (sizes : List (Option UInt16)) :
    invariant (w.calls lister state sizes).walk := by
  induction sizes generalizing w state with
  | nil => exact hw
  | cons size sizes ih => exact ih (hnext w size state hw) _

/-- Calls go on where earlier calls have stopped. -/
theorem calls_append (w : Walk) (lister : Lister σ) (state : σ)
    (sizes more : List (Option UInt16)) :
    w.calls lister state (sizes ++ more) =
      let before := w.calls lister state sizes
      let after := before.walk.calls lister before.state more
      { after with results := before.results ++ after.results } := by
  induction sizes generalizing w state with
  | nil => rfl
  | cons size sizes ih => simp only [List.cons_append, calls, ih]

theorem sends_append (w : Walk) (lister : Lister σ) (state : σ)
    (sizes more : List (Option UInt16)) :
    w.sends lister state (sizes ++ more) = w.sends lister state sizes ++
      (w.calls lister state sizes).walk.sends lister (w.calls lister state sizes).state more := by
  induction sizes generalizing w state with
  | nil => rfl
  | cons size sizes ih => simp only [List.cons_append, sends, calls, ih, List.append_assoc]

/-- Calls on a walk that is over come to nothing. -/
theorem calls_of_isDone {w : Walk} (hdone : w.isDone = true) (lister : Lister σ) (state : σ)
    (sizes : List (Option UInt16)) :
    w.calls lister state sizes =
      { results := List.replicate sizes.length none, walk := w, state } := by
  induction sizes with
  | nil => rfl
  | cons size sizes ih =>
      obtain ⟨hitem, hwalk, hstate⟩ := next_of_isDone hdone lister size state
      simp only [calls, hitem, hwalk, hstate, ih, List.length_cons, List.replicate_succ]

theorem sends_of_isDone {w : Walk} (hdone : w.isDone = true) (lister : Lister σ) (state : σ)
    (sizes : List (Option UInt16)) : w.sends lister state sizes = [] := by
  induction sizes with
  | nil => rfl
  | cons size sizes ih =>
      obtain ⟨-, hwalk, hstate⟩ := next_of_isDone hdone lister size state
      simp only [sends, due?_of_isDone hdone, hwalk, hstate, ih, Option.toList_none,
        List.append_nil]

/-- A stream gives what calls without page sizes return, up to the first of them
that returns nothing. -/
theorem items_take {w : Walk} (hw : w.Coherent) (lister : Lister σ) (state : σ) (count : Nat) :
    (w.take lister state count).items =
      (w.calls lister state (List.replicate count none)).results.reduceOption := by
  induction count generalizing w state with
  | zero => rfl
  | succ count ih =>
      simp only [take, List.replicate_succ, calls]
      cases hitem : (w.next lister none state).item with
      | none =>
          have hdone := isDone_next hw (fun page => by rw [hitem]; exact nofun)
          simp [calls_of_isDone hdone, List.reduceOption]
      | some item =>
          simp [ih (coherent_next hw lister none state)]

end Walk

end VersionedBucket
