import VersionedBucket.Request

/-! # Walks over all pages

A lister answers requests and may change with every answer. A walk follows the continuation of each
page until the listing is complete, something fails, or the limit on pages is reached; after that it
asks nothing any more.
-/

namespace VersionedBucket

/-- Whatever answers requests: a step on a state of its own. -/
abbrev Lister (σ : Type) := Request → σ → Except Fault Page × σ

namespace Request

/-- Tests a request and lets the lister answer it. The lister does not see a request that fails. -/
def send {σ : Type} (r : Request) (lister : Lister σ) (state : σ) : Except Fault Page × σ :=
  match r.validate with
  | .error cause => (.error (.invalid cause), state)
  | .ok () => lister r state

end Request

/-- How far a walk has come. -/
structure Walk where
  /-- The request to send next; none once the listing is complete or has failed. -/
  request : Option Request
  /-- A fault in the last page's continuation that is still to be reported. -/
  pending : Option Invalid := none
  /-- How many requests were sent: at most one for each turn, so sixty-four bits can hold it. -/
  pagesFetched : Nat := 0
  deriving DecidableEq, Repr

/-- What one turn of a walk brings. -/
structure Turn (σ : Type) where
  /-- A page or a fault; none if the walk is over. -/
  item : Option (Except Fault Page)
  notices : List Notice := []
  walk : Walk
  state : σ

namespace Walk

variable {σ : Type}

def start (r : Request) : Walk := { request := some r }

def isDone (w : Walk) : Bool := w.request.isNone && w.pending.isNone

def isExhausted (w : Walk) (r : Request) : Bool :=
  match r.settings.maxPages with
  | none => false
  | some limit => limit.toNat ≤ w.pagesFetched

/-- Fetches the next page. A page size given here replaces the request's own from now on. -/
def next (w : Walk) (lister : Lister σ) (maxItems : Option UInt16) (state : σ) : Turn σ :=
  match w.pending, w.request with
  | some cause, _ =>
      { item := some (.error (.invalid cause)), walk := { w with pending := none }, state }
  | none, none => { item := none, walk := w, state }
  | none, some request =>
    if w.isExhausted request then { item := none, walk := { w with request := none }, state }
    else
      let r := { request with maxKeys := maxItems <|> request.maxKeys }
      let (answer, state) := r.send lister state
      let pagesFetched := w.pagesFetched + 1
      match answer with
      | .error fault =>
          { item := some (.error fault), walk := { request := none, pagesFetched }, state }
      | .ok page =>
        let walk : Walk :=
          match r.next? page with
          | .ok request => { request, pagesFetched }
          | .error cause => { request := none, pending := some cause, pagesFetched }
        { item := some (.ok page), notices := r.nextNotices page, walk, state }

/-- What a walk brings in at most `count` turns when it is left to itself. -/
structure Yield (σ : Type) where
  items : List (Except Fault Page) := []
  notices : List Notice := []
  walk : Walk
  state : σ

/-- Takes items until there are `count` or the walk is over. -/
def take (w : Walk) (lister : Lister σ) (state : σ) : Nat → Yield σ
  | 0 => { walk := w, state }
  | count + 1 =>
    let turn := w.next lister none state
    match turn.item with
    | none => { walk := turn.walk, state := turn.state, notices := turn.notices }
    | some item =>
      let rest := turn.walk.take lister turn.state count
      { rest with items := item :: rest.items, notices := turn.notices ++ rest.notices }

end Walk
end VersionedBucket
