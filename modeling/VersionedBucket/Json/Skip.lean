import VersionedBucket.Json.Reader

/-! # Passing over values

A value that nobody asks for is passed over: it only has to follow the grammar. It may be nested to
any depth, its strings need not be UTF-8, and its numbers have no range.
-/

namespace VersionedBucket.Json.Reader

/-- What follows a backslash in a string that is passed over. -/
def skipEscape : Reader Unit
  | [] => .error .ended
  | b :: rest =>
    if b = 0x75 then (fourDigits rest).map fun (_, after) => ((), after)
    else if (escaped? b).isSome then .ok ((), rest)
    else .error .malformed

theorem length_skipEscape {bs rest : List UInt8} (h : skipEscape bs = .ok ((), rest)) :
    rest.length < bs.length := by
  cases bs with
  | nil => cases h
  | cons b bs =>
      simp only [skipEscape] at h
      split at h
      · cases hd : fourDigits bs with
        | error fault =>
            rw [hd] at h
            cases h
        | ok result =>
            rw [hd] at h
            cases h
            have := length_fourDigits hd
            simp only [List.length_cons]
            omega
      · split at h
        · cases h
          simp
        · cases h

/-- The rest of a string, through the closing quote. -/
def skipString (bs : List UInt8) : Except Fault (Unit × List UInt8) :=
  match bs with
  | [] => .error .ended
  | b :: rest =>
    if b = 0x22 then .ok ((), rest)
    else if b = 0x5C then
      match h : skipEscape rest with
      | .error fault => .error fault
      | .ok ((), after) =>
        have := length_skipEscape h
        skipString after
    else if b < 0x20 then .error .malformed
    else skipString rest
  termination_by bs.length
  decreasing_by all_goals
    simp only [List.length_cons]
    omega

/-- At least one digit and all that follow. -/
def skipDigits : Reader Unit := fun bs =>
  if bs.head?.any isDigit then .ok ((), bs.dropWhile isDigit) else .error .malformed

/-- An exponent after its mark. -/
def skipExponent : Reader Unit
  | 0x2B :: rest => skipDigits rest
  | 0x2D :: rest => skipDigits rest
  | bs => skipDigits bs

def skipExponentPart : Reader Unit
  | 0x65 :: rest => skipExponent rest
  | 0x45 :: rest => skipExponent rest
  | bs => .ok ((), bs)

/-- What may follow the integral part of a number. -/
def skipFraction : Reader Unit
  | 0x2E :: rest => do
    let ((), rest) ← skipDigits rest
    skipExponentPart rest
  | bs => skipExponentPart bs

/-- A number after its sign. -/
def skipNumber : Reader Unit
  | 0x30 :: rest => if rest.head?.any isDigit then .error .malformed else skipFraction rest
  | bs => do
    let ((), rest) ← skipDigits bs
    skipFraction rest

mutual

def skipValue : (steps : Nat) → Reader Unit
  | 0 => fail .malformed
  | steps + 1 => do
    match ← peekValue? with
    | none => fail .ended
    | some b =>
      if b = byte 'n' then word "null".toList
      else if b = byte 't' then word "true".toList
      else if b = byte 'f' then word "false".toList
      else if b = byte '-' then
        advance
        skipNumber
      else if isDigit b then skipNumber
      else if b = byte '"' then
        advance
        skipString
      else if b = byte '[' then
        advance
        if (← peekValue?) = some (byte ']') then advance else skipItems steps
      else if b = byte '{' then
        advance
        if (← peekValue?) = some (byte '}') then advance else skipMembers steps
      else fail .malformed

/-- The items of a list, through its end. -/
def skipItems : (steps : Nat) → Reader Unit
  | 0 => fail .malformed
  | steps + 1 => do
    skipValue steps
    match ← peekValue? with
    | none => fail .ended
    | some b =>
      if b = byte ',' then
        advance
        skipItems steps
      else if b = byte ']' then advance
      else fail .malformed

/-- The members of an object, through its end. -/
def skipMembers : (steps : Nat) → Reader Unit
  | 0 => fail .malformed
  | steps + 1 => do
    match ← peekValue? with
    | none => fail .ended
    | some b => if b = byte '"' then advance else fail .malformed
    skipString
    match ← peekValue? with
    | none => fail .ended
    | some b => if b = byte ':' then advance else fail .malformed
    skipValue steps
    match ← peekValue? with
    | none => fail .ended
    | some b =>
      if b = byte ',' then
        advance
        skipMembers steps
      else if b = byte '}' then advance
      else fail .malformed

end

/-- Passes over a value. Every two steps take a byte at least. -/
def skip : Reader Unit := fun bs => skipValue (2 * bs.length + 1) bs

end VersionedBucket.Json.Reader
