import VersionedBucket.Json.Fault
import VersionedBucket.Text.Utf8

/-! # Reading JSON text

A reader takes bytes from the front of a text and stops at the first fault, so of several faults in
a text the first is reported. This module has the parts that all values share: white space, words
and strings.
-/

namespace VersionedBucket.Json

/-- A reader that takes bytes from the front. -/
abbrev Reader := StateT (List UInt8) (Except Fault)

namespace Reader

def fail {α : Type} (fault : Fault) : Reader α := fun _ => .error fault

def byte (c : Char) : UInt8 := UInt8.ofNat c.toNat

def isSpace (b : UInt8) : Bool := b == 0x20 || b == 0x09 || b == 0x0A || b == 0x0D

def isDigit (b : UInt8) : Bool := 0x30 ≤ b && b ≤ 0x39

def skipSpace : Reader Unit := fun bs => .ok ((), bs.dropWhile isSpace)

def peek? : Reader (Option UInt8) := fun bs => .ok (bs.head?, bs)

/-- The next byte after white space, left in place. -/
def peekValue? : Reader (Option UInt8) := do
  skipSpace
  peek?

def advance : Reader Unit := fun bs => .ok ((), bs.drop 1)

/-- Passes over given characters, each of which has to be there. -/
def word : List Char → Reader Unit
  | [], bs => .ok ((), bs)
  | _ :: _, [] => .error .ended
  | c :: cs, b :: bs => if b = byte c then word cs bs else .error .malformed

/-- The value of a byte that is a hexadecimal digit. -/
def hexValue? (b : UInt8) : Option Nat := Text.hexDigit? (Char.ofNat b.toNat)

def fourDigits : Reader Nat
  | a :: b :: c :: d :: rest =>
    match hexValue? a, hexValue? b, hexValue? c, hexValue? d with
    | some w, some x, some y, some z => .ok (((w * 16 + x) * 16 + y) * 16 + z, rest)
    | _, _, _, _ => .error .malformed
  | _ => .error .ended

/-- The second half of a surrogate pair, in an escape of its own. -/
def lowSurrogate : Reader Nat := do
  word ['\\']
  word ['u']
  let n ← fourDigits
  if 0xDC00 ≤ n ∧ n ≤ 0xDFFF then pure n else fail .malformed

/-- What follows `\u`: a character of the basic plane, or the first half of a pair and
then the second. -/
def unicodeEscape : Reader Char := do
  let n ← fourDigits
  if n < 0xD800 ∨ 0xDFFF < n then pure (Char.ofNat n)
  else if n ≤ 0xDBFF then
    let low ← lowSurrogate
    pure (Char.ofNat ((n - 0xD800) * 0x400 + (low - 0xDC00) + 0x10000))
  else fail .malformed

/-- The character that a letter names after a backslash. -/
def escaped? (b : UInt8) : Option Char :=
  if b = 0x22 then some '"'
  else if b = 0x5C then some '\\'
  else if b = 0x2F then some '/'
  else if b = 0x62 then some '\x08'
  else if b = 0x66 then some '\x0C'
  else if b = 0x6E then some '\n'
  else if b = 0x72 then some '\r'
  else if b = 0x74 then some '\t'
  else none

/-- What follows a backslash. -/
def escape : Reader Char
  | [] => .error .ended
  | b :: rest =>
    if b = 0x75 then unicodeEscape rest
    else
      match escaped? b with
      | some c => .ok (c, rest)
      | none => .error .malformed

theorem length_word {cs : List Char} {bs rest : List UInt8} (h : word cs bs = .ok ((), rest)) :
    rest.length + cs.length = bs.length := by
  induction cs generalizing bs with
  | nil =>
      cases h
      rfl
  | cons c cs ih =>
      cases bs with
      | nil => cases h
      | cons b bs =>
          rw [word] at h
          split at h
          · have := ih h
            simp only [List.length_cons]
            omega
          · cases h

theorem length_fourDigits {bs rest : List UInt8} {n : Nat} (h : fourDigits bs = .ok (n, rest)) :
    rest.length < bs.length := by
  unfold fourDigits at h
  split at h
  · split at h
    · cases h
      simp only [List.length_cons]
      omega
    · cases h
  · cases h

theorem length_lowSurrogate {bs rest : List UInt8} {n : Nat}
    (h : lowSurrogate bs = .ok (n, rest)) : rest.length < bs.length := by
  simp only [lowSurrogate, bind, StateT.bind, Except.bind] at h
  split at h
  · cases h
  next first hfirst =>
    split at h
    · cases h
    next second hsecond =>
      split at h
      · cases h
      next digits hdigits =>
        have h1 := length_word hfirst
        have h2 := length_word hsecond
        have h3 := length_fourDigits hdigits
        split at h
        · cases h
          omega
        · cases h

theorem length_unicodeEscape {bs rest : List UInt8} {c : Char}
    (h : unicodeEscape bs = .ok (c, rest)) : rest.length < bs.length := by
  simp only [unicodeEscape, bind, StateT.bind, Except.bind] at h
  split at h
  · cases h
  next digits hdigits =>
    have hd := length_fourDigits hdigits
    split at h
    · cases h
      exact hd
    · split at h
      · simp only [StateT.bind, bind, Except.bind] at h
        split at h
        · cases h
        next low hlow =>
          have hl := length_lowSurrogate hlow
          have hrest : low.2 = rest := congrArg Prod.snd (Except.ok.inj h)
          rw [← hrest]
          exact Nat.lt_trans hl hd
      · cases h

theorem length_escape {bs rest : List UInt8} {c : Char} (h : escape bs = .ok (c, rest)) :
    rest.length < bs.length := by
  cases bs with
  | nil => cases h
  | cons b bs =>
      simp only [escape] at h
      split at h
      · have := length_unicodeEscape h
        simp only [List.length_cons]
        omega
      · split at h
        · cases h
          simp
        · cases h

/-- The bytes of a string after its opening quote, through the closing one. -/
def stringBytes (bs : List UInt8) : Except Fault (List UInt8 × List UInt8) :=
  match bs with
  | [] => .error .ended
  | b :: rest =>
    if b = 0x22 then .ok ([], rest)
    else if b = 0x5C then
      match h : escape rest with
      | .error fault => .error fault
      | .ok (c, after) =>
        have := length_escape h
        (stringBytes after).map fun (value, rest) => (String.utf8EncodeChar c ++ value, rest)
    else if b < 0x20 then .error .malformed
    else (stringBytes rest).map fun (value, rest) => (b :: value, rest)
  termination_by bs.length
  decreasing_by all_goals
    simp only [List.length_cons]
    omega

/-- A string after its opening quote. Its bytes have to be UTF-8. -/
def stringBody : Reader String := fun bs => do
  let (value, rest) ← stringBytes bs
  match Text.Utf8.decode value with
  | .ok cs => .ok (String.ofList cs, rest)
  | .error _ => .error .malformed

end Reader
end VersionedBucket.Json
