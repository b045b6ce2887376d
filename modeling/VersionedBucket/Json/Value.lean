import VersionedBucket.Json.Number

/-! # Reading values of a kind

Readers for the kinds of value that listings are made of. A value of another kind is read far enough
to say what it is, so a fault in it is found before the mismatch.
-/

namespace VersionedBucket.Json.Reader

/-- What stands where something else is expected. Lists and objects are not looked into. -/
def found : Reader Found := do
  match ← peek? with
  | none => fail .ended
  | some b =>
    if b = byte 'n' then
      word "null".toList
      pure .null
    else if b = byte 't' then
      word "true".toList
      pure (.boolean true)
    else if b = byte 'f' then
      word "false".toList
      pure (.boolean false)
    else if b = byte '-' then
      advance
      return (← number true).found
    else if isDigit b then
      return (← number false).found
    else if b = byte '"' then
      advance
      return .text (← stringBody)
    else if b = byte '[' then pure .sequence
    else if b = byte '{' then pure .map
    else fail .malformed

/-- Reports a value of the wrong kind. -/
def mismatch {α : Type} (expected : Expected) : Reader α := do
  fail (.mismatch (.kind (← found) expected))

/-- A string, by what it is expected to be. -/
def string (expected : Expected) : Reader String := do
  match ← peekValue? with
  | none => fail .ended
  | some b =>
    if b = byte '"' then
      advance
      stringBody
    else mismatch expected

def text : Reader String := string .text

def boolean : Reader Bool := do
  match ← peekValue? with
  | none => fail .ended
  | some b =>
    if b = byte 't' then
      word "true".toList
      pure true
    else if b = byte 'f' then
      word "false".toList
      pure false
    else mismatch .boolean

/-- A number that is expected to be a natural number up to a limit. -/
def natural (expected : Expected) (limit : Nat) : Reader UInt64 := do
  let n ←
    match ← peekValue? with
    | none => fail .ended
    | some b =>
      if b = byte '-' then
        advance
        number true
      else if isDigit b then number false
      else mismatch expected
  match n with
  | .natural value =>
    if value.toNat ≤ limit then pure value
    else fail (.mismatch (.value (.natural value.toNat) expected))
  | .negative magnitude => fail (.mismatch (.value (.negative (-(magnitude : Int))) expected))
  | .double value => fail (.mismatch (.kind (Number.double value).found expected))

def uint16 : Reader UInt16 := do return (← natural .uint16 65535).toUInt16

def uint64 : Reader UInt64 := natural .uint64 18446744073709551615

def optional {α : Type} (read : Reader α) : Reader (Option α) := do
  if (← peekValue?) = some (byte 'n') then
    word "null".toList
    pure none
  else
    return some (← read)

/-- Whether a list goes on, in front of its first item or behind one. -/
def hasItem (isFirst : Bool) : Reader Bool := do
  match ← peekValue? with
  | none => fail .ended
  | some b =>
    if b = byte ']' then pure false
    else if isFirst then pure true
    else if b = byte ',' then
      advance
      match ← peekValue? with
      | none => fail .ended
      | some b => if b = byte ']' then fail .malformed else pure true
    else fail .malformed

def endOfItems : Reader Unit := do
  match ← peekValue? with
  | none => fail .ended
  | some b => if b = byte ']' then advance else fail .malformed

def items {α : Type} (read : Reader α) : (steps : Nat) → (isFirst : Bool) → Reader (List α)
  | 0, _ => fail .malformed
  | steps + 1, isFirst => do
    if ← hasItem isFirst then
      let first ← read
      return first :: (← items read steps false)
    else pure []

/-- A list. Every item takes a byte at least. -/
def list {α : Type} (read : Reader α) : Reader (List α) := do
  match ← peekValue? with
  | none => fail .ended
  | some b =>
    if b = byte '[' then
      advance
      let values ← fun bs => items read (bs.length + 1) true bs
      endOfItems
      return values
    else mismatch .sequence

def time (parse : String → Except Time.Fault Time.Instant) : Reader Time.Instant := do
  match parse (← string .time) with
  | .ok t => pure t
  | .error fault => fail (.mismatch (.time fault))

/-- Reads a text that consists of one value. -/
def whole {α : Type} (read : Reader α) (bs : List UInt8) : Except Fault α := do
  let (value, rest) ← read bs
  if (rest.dropWhile isSpace).isEmpty then .ok value else .error .malformed

end VersionedBucket.Json.Reader
