import VersionedBucket.Text.Printable

/-! # Quoted text

How a message quotes a text: between double quotes, with a backslash before the quote and the
backslash, short escapes for NUL, tab, line feed and carriage return, and every other character that
does not print spelled out as its number in braces.
-/

namespace VersionedBucket.Text

def hexadecimal (n : Nat) : List Char := Nat.toDigits 16 n

def quoteChar (c : Char) : List Char :=
  if c = '"' then ['\\', '"']
  else if c = '\\' then ['\\', '\\']
  else if c = '\x00' then ['\\', '0']
  else if c = '\t' then ['\\', 't']
  else if c = '\n' then ['\\', 'n']
  else if c = '\r' then ['\\', 'r']
  else if isSpelledOut c then ['\\', 'u', '\x7b'] ++ hexadecimal c.toNat ++ ['\x7d']
  else [c]

def quote (s : String) : String :=
  String.ofList ('"' :: s.toList.flatMap quoteChar ++ ['"'])

end VersionedBucket.Text
