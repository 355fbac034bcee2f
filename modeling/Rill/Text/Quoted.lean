import Rill.Text.Class

/-!
# Quoted text

How a string or a character is shown in a message or an outline. A string stands in double quotes, a
character in single quotes. NUL, tab, carriage return, line feed, the backslash and the enclosing
quote have a two-character escape; every other character that a reader could not see, or that would
join its neighbour, is written by its code point. So a quoted text holds no line break.
-/

namespace Rill.Text

/-- The lower-case hexadecimal digits of `n`, without padding. -/
def hexDigits (n : Nat) : List Char :=
  Nat.toDigits 16 n

/-- One character as it stands between two quotes `quote`. -/
def quotedChar (quote c : Char) : List Char :=
  if c == '\x00' then ['\\', '0']
  else if c == '\t' then ['\\', 't']
  else if c == '\r' then ['\\', 'r']
  else if c == '\n' then ['\\', 'n']
  else if c == '\\' || c == quote then ['\\', c]
  else if isExtending c || isHidden c then
    ['\\', 'u', '\x7b'] ++ hexDigits c.toNat ++ ['\x7d']
  else [c]

/-- A string in double quotes. -/
def quoteString (s : String) : String :=
  String.ofList ('"' :: s.toList.flatMap (quotedChar '"') ++ ['"'])

/-- A character in single quotes. -/
def quoteChar (c : Char) : String :=
  String.ofList ('\'' :: quotedChar '\'' c ++ ['\''])

end Rill.Text
