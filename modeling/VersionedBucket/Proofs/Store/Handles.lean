import VersionedBucket.Proofs.Store.Ledger
import Mathlib.Logic.Function.Basic

/-! # Handles on one store

A store is reached through handles. A copy of a handle shares the store and has an owner of its
own, at first the one of the handle that it was copied from. What is written through a handle
gets the owner that the handle has at that time, and all that is done through any handle makes up
one history.
-/

namespace VersionedBucket.Store

/-- What is asked of a store through a handle. -/
inductive Command where
  | makeBucket (name : String)
  | putObject (bucket key : String) (size : UInt64) (stamp : Stamp)
  | putDeleteMarker (bucket key : String) (stamp : Stamp)
  | removeVersion (bucket key versionId : String)
  deriving DecidableEq, Repr

/-- The operation that a command comes to through a handle with an owner. -/
def Command.under (owner : Option Owner) : Command → Op
  | makeBucket name => .makeBucket name
  | putObject bucket key size stamp => .putObject owner bucket key size stamp
  | putDeleteMarker bucket key stamp => .putDeleteMarker owner bucket key stamp
  | removeVersion bucket key versionId => .removeVersion bucket key versionId

/-- Calls on handles, which are numbered. -/
inductive Call where
  | clone (source copy : Nat)
  | withOwner (handle : Nat) (owner : Owner)
  | through (handle : Nat) (command : Command)
  deriving DecidableEq, Repr

namespace Call

/-! ## What the calls say

Calls are listed newest first. -/

/-- The owner of a handle: the one given to it last, or the one that the handle it was copied from
had by then. -/
def ownerOf : List Call → Nat → Option Owner
  | [], _ => none
  | clone source copy :: earlier, handle =>
      ownerOf earlier (if handle = copy then source else handle)
  | withOwner other owner :: earlier, handle =>
      if handle = other then some owner else ownerOf earlier handle
  | through _ _ :: earlier, handle => ownerOf earlier handle

/-- The history that calls make up. A write gets the owner that its handle had at that time. -/
def history : List Call → History
  | [] => []
  | clone _ _ :: earlier => history earlier
  | withOwner _ _ :: earlier => history earlier
  | through handle command :: earlier => history earlier ++ [command.under (ownerOf earlier handle)]

/-- The replies that the history before each command calls for, newest first. -/
def replies : List Call → List Reply
  | [] => []
  | clone _ _ :: earlier => replies earlier
  | withOwner _ _ :: earlier => replies earlier
  | through handle command :: earlier =>
    (history earlier).reply (command.under (ownerOf earlier handle)) :: replies earlier

end Call

/-! ## What the handles do -/

/-- Handles on one store. -/
structure Handles where
  store : Store := {}
  owners : Nat → Option Owner := fun _ => none

namespace Handles

def apply (s : Handles) : Call → Handles
  | .clone source copy => { s with owners := Function.update s.owners copy (s.owners source) }
  | .withOwner handle owner => { s with owners := Function.update s.owners handle (some owner) }
  | .through handle command => { s with store := (command.under (s.owners handle)).apply s.store }

/-- What a call returns. Only commands return something that tells of the store. -/
def reply? (s : Handles) : Call → Option Reply
  | .clone _ _ | .withOwner _ _ => none
  | .through handle command => some ((command.under (s.owners handle)).reply s.store)

/-- The handles on a new store after calls. -/
def after : List Call → Handles
  | [] => {}
  | call :: earlier => (after earlier).apply call

/-- What calls on the handles of a new store return, newest first. -/
def replies : List Call → List Reply
  | [] => []
  | call :: earlier => ((after earlier).reply? call).toList ++ replies earlier

theorem owners_after (calls : List Call) : (after calls).owners = Call.ownerOf calls := by
  funext handle
  induction calls generalizing handle with
  | nil => rfl
  | cons call earlier ih =>
      cases call with
      | clone source copy =>
          simp only [after, apply, Call.ownerOf, Function.update_apply, ih]
          split <;> rfl
      | withOwner other owner => simp only [after, apply, Call.ownerOf, Function.update_apply, ih]
      | through other command => exact ih handle

theorem store_after (calls : List Call) : (after calls).store = (Call.history calls).store := by
  induction calls with
  | nil => rfl
  | cons call earlier ih =>
      cases call with
      | clone source copy => exact ih
      | withOwner handle owner => exact ih
      | through handle command =>
          rw [Call.history, History.store_append, ← ih, ← owners_after]
          rfl

theorem nodup_drawn_earlier {call : Call} {earlier : List Call}
    (hdistinct : (Call.history (call :: earlier)).drawn.Nodup) :
    (Call.history earlier).drawn.Nodup := by
  cases call with
  | clone source copy => exact hdistinct
  | withOwner handle owner => exact hdistinct
  | through handle command =>
      rw [Call.history, History.drawn_append] at hdistinct
      exact hdistinct.of_append_left

theorem replies_eq {calls : List Call} (hdistinct : (Call.history calls).drawn.Nodup) :
    replies calls = Call.replies calls := by
  induction calls with
  | nil => rfl
  | cons call earlier ih =>
      have hearlier := nodup_drawn_earlier hdistinct
      cases call with
      | clone source copy => exact ih hearlier
      | withOwner handle owner => exact ih hearlier
      | through handle command =>
          rw [replies, reply?, owners_after, store_after, History.reply_eq hearlier, ih hearlier]
          rfl

/-- Whatever is done to a store through whatever handles, the store is the one that the history of
it all leads to. It holds what this history says, it will reply as the history says, and so it has
replied all the time. -/
theorem ledger (calls : List Call) (hdistinct : (Call.history calls).drawn.Nodup) :
    (after calls).store = (Call.history calls).store ∧
      Ledger (Call.history calls) (after calls).store ∧
      replies calls = Call.replies calls := by
  refine ⟨store_after calls, ?_, replies_eq hdistinct⟩
  rw [store_after]
  exact History.ledger_store hdistinct

/-- Three handles with owners and without. The first write comes too early, and one version
is removed twice. -/
def sampleCalls : List Call :=
  List.reverse
    [.clone 0 1, .withOwner 0 ⟨"u1", none⟩,
      .through 1 (.putObject "photos" "a" 2 ⟨"i0", .epoch, "e0"⟩),
      .through 0 (.makeBucket "photos"),
      .through 1 (.putObject "photos" "a" 3 ⟨"i1", .epoch, "e1"⟩),
      .through 0 (.putObject "photos" "a" 4 ⟨"i2", .epoch, "e2"⟩), .clone 0 2,
      .through 2 (.putDeleteMarker "photos" "a" ⟨"i3", .epoch, "e3"⟩), .withOwner 1 ⟨"u2", none⟩,
      .through 1 (.putObject "photos" "a" 5 ⟨"i4", .epoch, "e4"⟩),
      .through 1 (.makeBucket "photos"),
      .through 0 (.removeVersion "photos" "a" "i2"), .through 2 (.removeVersion "photos" "a" "i2")]

theorem ledger_sampleCalls :
    ((after sampleCalls).store.versions "photos" "a").map (fun v =>
        (v.versionId, v.size, v.owner.map (·.id))) =
        [("i4", 5, some "u2"), ("i3", 0, some "u1"), ("i1", 3, none)] ∧
      (replies sampleCalls).reverse =
        [.written (.error (.noSuchBucket "photos")), .made true, .written (.ok "i1"),
          .written (.ok "i2"),
          .written (.ok "i3"), .written (.ok "i4"), .made false, .removed (.ok true),
          .removed (.ok false)] := by
  obtain ⟨-, hledger, hreplies⟩ := ledger sampleCalls (by decide)
  rw [hledger.versions, hreplies]
  exact ⟨by decide, by decide⟩

end Handles

end VersionedBucket.Store
