import VersionedBucket.Json.Skip
import VersionedBucket.Json.Value

/-! # Records

A record is written as an object or as a list. In an object its fields may stand in any order, each
at most once, and other members are passed over. In a list the fields stand in the order of their
declaration and those that need not be there may be missing at the end.
-/

namespace VersionedBucket.Json

/-- A field of a record, read into a partial record of type `σ`. -/
structure Field (σ : Type) where
  name : String
  isRequired : Bool := false
  /-- The field has been read before. -/
  isSet : σ → Bool
  read : σ → Reader σ

/-- How records are read: field by field into a partial record, which is then finished. -/
structure Record (σ α : Type) where
  name : String
  fields : List (Field σ)
  /-- Nothing read yet. -/
  start : σ
  /-- The record, or the first field that is missing. -/
  finish : σ → Except Mismatch α

/-- A field that has to be there. -/
def need {α : Type} (name : String) : Option α → Except Mismatch α
  | some value => .ok value
  | none => .error (.missing name)

namespace Record

variable {σ α : Type}

/-- The fields of a record in a list; `index` counts those before. -/
def items (r : Record σ α) (index : Nat) (s : σ) : List (Field σ) → Reader σ
  | [] => pure s
  | f :: rest => do
    if ← Reader.hasItem (index == 0) then items r (index + 1) (← f.read s) rest
    else if f.isRequired then .fail (.mismatch (.length index r.name r.fields.length))
    else items r (index + 1) s rest

/-- Whether an object goes on, in front of its first member or behind one. -/
def hasMember (isFirst : Bool) : Reader Bool := do
  match ← Reader.peekValue? with
  | none => .fail .ended
  | some b =>
    if b = Reader.byte '}' then pure false
    else if isFirst then
      if b = Reader.byte '"' then pure true else .fail .malformed
    else if b = Reader.byte ',' then
      Reader.advance
      match ← Reader.peekValue? with
      | none => .fail .ended
      | some b => if b = Reader.byte '"' then pure true else .fail .malformed
    else .fail .malformed

def colon : Reader Unit := do
  match ← Reader.peekValue? with
  | none => .fail .ended
  | some b => if b = Reader.byte ':' then Reader.advance else .fail .malformed

def members (r : Record σ α) : (steps : Nat) → (isFirst : Bool) → σ → Reader σ
  | 0, _, _ => .fail .malformed
  | steps + 1, isFirst, s => do
    if ← hasMember isFirst then
      Reader.advance
      let name ← Reader.stringBody
      match r.fields.find? (·.name == name) with
      | some f =>
        if f.isSet s then .fail (.mismatch (.duplicate name))
        else
          colon
          members r steps false (← f.read s)
      | none =>
        colon
        Reader.skip
        members r steps false s
    else pure s

/-- Reports what is missing. -/
def finished (r : Record σ α) (s : σ) : Reader α :=
  match r.finish s with
  | .ok value => pure value
  | .error cause => .fail (.mismatch cause)

/-- Reads a record. Every member takes a byte at least. -/
def read (r : Record σ α) : Reader α := do
  match ← Reader.peekValue? with
  | none => .fail .ended
  | some b =>
    if b = Reader.byte '[' then
      Reader.advance
      let value ← r.finished (← r.items 0 r.start r.fields)
      Reader.endOfItems
      return value
    else if b = Reader.byte '{' then
      Reader.advance
      let value ← r.finished (← fun bs => r.members (bs.length + 1) true r.start bs)
      Reader.advance
      return value
    else Reader.mismatch (.record r.name)

end Record
end VersionedBucket.Json
