import VersionedBucket.Text.Numeral
import VersionedBucket.Text.Quoted

/-! # Writing JSON text

JSON without white space. Strings escape the quote, the backslash and the control characters, and
nothing else. Members of an object that have no value are left out.
-/

namespace VersionedBucket.Json.Writer

/-- The escape of a control character that has no short one. -/
def controlEscape (c : Char) : List Char :=
  let digits := Text.hexadecimal c.toNat
  '\\' :: 'u' :: (List.replicate (4 - digits.length) '0' ++ digits)

/-- The written form of one character of a string. -/
def escape (c : Char) : List Char :=
  if c = '"' then ['\\', '"']
  else if c = '\\' then ['\\', '\\']
  else if c = '\x08' then ['\\', 'b']
  else if c = '\t' then ['\\', 't']
  else if c = '\n' then ['\\', 'n']
  else if c = '\x0C' then ['\\', 'f']
  else if c = '\r' then ['\\', 'r']
  else if c.toNat < 0x20 then controlEscape c
  else [c]

def text (s : String) : List Char := '"' :: s.toList.flatMap escape ++ ['"']

def boolean (b : Bool) : List Char := (Text.truthWord b).toList

def natural (n : Nat) : List Char := Text.decimal n

def separated : List (List Char) → List Char
  | [] => []
  | [value] => value
  | value :: rest => value ++ ',' :: separated rest

def list (values : List (List Char)) : List Char := '[' :: separated values ++ [']']

def member (name : String) (value : List Char) : List Char := text name ++ ':' :: value

/-- A member that is left out if it has no value. -/
def optionalMember {α : Type} (name : String) (write : α → List Char) : Option α → List (List Char)
  | none => []
  | some value => [member name (write value)]

def object (members : List (List Char)) : List Char := '\x7b' :: separated members ++ ['\x7d']

end VersionedBucket.Json.Writer
