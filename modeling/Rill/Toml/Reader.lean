import Rill.Decimal.Binary64
import Rill.Toml.Document

/-!
# Reading TOML

A document is a sequence of lines : blank ones, table headers, and keys with their items. Reading
either gives the document or fails; why it failed is not told. Keys have fewer than `depthLimit`
parts, and fewer than `depthLimit` arrays and tables may be open around an item.
-/

namespace Rill.Toml

/-- A step of reading. A failed step leaves the text as it was. -/
abbrev Read := StateT (List Char) Option

namespace Read

/-! ## Characters -/

/-- The next character that passes a test. -/
def satisfy (test : Char → Bool) : Read Char := fun
  | c :: cs => if test c then some (c, cs) else none
  | [] => none

/-- A given character. -/
def char (c : Char) : Read Unit := do
  let _ ← satisfy (· == c)

/-- A given word. -/
def word (s : String) : Read Unit := s.toList.forM char

/-- All characters up to the first that fails a test. -/
def span (test : Char → Bool) : Read (List Char) :=
  fun cs => some (cs.takeWhile test, cs.dropWhile test)

/-- One character or more that pass a test. -/
def span1 (test : Char → Bool) : Read (List Char) := do
  let cs ← span test
  guard (!cs.isEmpty)
  return cs

/-- Succeeds at the end of the text. -/
def atEnd : Read Unit := do
  guard (← get).isEmpty

/-- What a step gives, or nothing if it fails. -/
def optional {α : Type} (step : Read α) : Read (Option α) :=
  (some <$> step) <|> pure none

/-- A step as often as it succeeds, at most a number of times. -/
def upTo {α : Type} (step : Read α) : Nat → Read (List α)
  | 0 => return []
  | n + 1 => (do
    let a ← step
    let rest ← upTo step n
    return a :: rest) <|> return []

/-- A step that takes text, as often as it succeeds. -/
def many {α : Type} (step : Read α) : Read (List α) := do
  upTo step (← get).length

/-- One step or more with separators in between. -/
def separated {α : Type} (step : Read α) (separator : Read Unit) : Read (List α) := do
  let first ← step
  let rest ← many (do separator; step)
  return first :: rest

/-- The text that a step takes. -/
def taken (step : Read Unit) : Read String := do
  let before ← get
  step
  let after ← get
  return String.ofList (before.take (before.length - after.length))

/-! ## Blanks and comments -/

/-- Whether a character is a blank inside a line. -/
def isBlank (c : Char) : Bool := c == ' ' || c == '\t'

/-- Blanks inside a line. -/
def blanks : Read Unit := do
  let _ ← span isBlank

/-- A line break. -/
def lineBreak : Read Unit := char '\n' <|> word "\r\n"

/-- Whether a character may stand in a comment. -/
def isCommentChar (c : Char) : Bool := c == '\t' || (' ' ≤ c && c != '\x7f')

/-- A comment up to the end of its line. -/
def comment : Read Unit := do
  char '#'
  let _ ← span isCommentChar

/-- Blanks, an optional comment, and the end of the line or of the text. -/
def lineEnd : Read Unit := do
  blanks
  let _ ← optional comment
  lineBreak <|> atEnd

/-- Blanks, comments and line breaks. -/
def layout : Read Unit := do
  let _ ← many ((do let _ ← span1 isBlank) <|> lineBreak <|> (do comment; lineBreak))

/-! ## Strings and keys -/

/-- The value of a hexadecimal digit. -/
def hexDigit? (c : Char) : Option Nat :=
  if '0' ≤ c && c ≤ '9' then some (c.toNat - 48)
  else if 'a' ≤ c && c ≤ 'f' then some (c.toNat - 87)
  else if 'A' ≤ c && c ≤ 'F' then some (c.toNat - 55)
  else none

/-- Exactly so many hexadecimal digits, after those that were read before. -/
def hexNumber : Nat → Nat → Read Nat
  | 0, value => return value
  | n + 1, value => do
    let c ← satisfy fun c => (hexDigit? c).isSome
    hexNumber n (16 * value + (hexDigit? c).getD 0)

/-- The character of a code point. -/
def codePoint (value : Nat) : Read Char := do
  guard value.isValidChar
  return Char.ofNat value

/-- What a backslash and the characters after it stand for. -/
def escape : Read Char := do
  char '\\'
  match ← satisfy fun _ => true with
  | 'b' => return '\x08'
  | 't' => return '\t'
  | 'n' => return '\n'
  | 'f' => return '\x0c'
  | 'r' => return '\r'
  | '"' => return '"'
  | '\\' => return '\\'
  | 'u' => codePoint (← hexNumber 4 0)
  | 'U' => codePoint (← hexNumber 8 0)
  | _ => failure

/-- Whether a character may stand in a string on one line. -/
def isStringChar (c : Char) : Bool := c == '\t' || (' ' ≤ c && c != '\x7f')

/-- A string in double quotes. -/
def basicString : Read String := do
  char '"'
  let cs ← many (satisfy (fun c => isStringChar c && c != '"' && c != '\\') <|> escape)
  char '"'
  return String.ofList cs

/-- A string in single quotes. -/
def literalString : Read String := do
  char '\''
  let cs ← span fun c => isStringChar c && c != '\''
  char '\''
  return String.ofList cs

/-- A line break inside a string, which counts as a line feed. -/
def stringBreak : Read Char := do
  lineBreak
  return '\n'

/-- A backslash that joins lines : it takes all blanks and line breaks after it. -/
def joinLines : Read Unit := do
  char '\\'
  blanks
  lineBreak
  let _ ← many ((do let _ ← span1 isBlank) <|> lineBreak)

/-- Up to two quotes that do not end a string. -/
def innerQuotes (quote : Char) : Read (List Char) := do
  let quotes ← span1 (· == quote)
  guard (quotes.length ≤ 2)
  return quotes

/-- Three closing quotes, before which one or two quotes may belong to the string. -/
def closingQuotes (quote : Char) : Read (List Char) := do
  let quotes ← span (· == quote)
  guard (3 ≤ quotes.length && quotes.length ≤ 5)
  return quotes.drop 3

/-- A string of several lines, given its quote and its other parts. -/
def blockString (quote : Char) (part : Read (List Char)) : Read String := do
  word (String.ofList [quote, quote, quote])
  let _ ← optional lineBreak
  let parts ← many (part <|> innerQuotes quote)
  let last ← closingQuotes quote
  return String.ofList (parts.flatten ++ last)

/-- A string of several lines in double quotes. -/
def basicBlock : Read String :=
  blockString '"' (
    (List.singleton <$> satisfy fun c => isStringChar c && c != '"' && c != '\\')
    <|> (List.singleton <$> stringBreak)
    <|> (do joinLines; return [])
    <|> (List.singleton <$> escape))

/-- A string of several lines in single quotes. -/
def literalBlock : Read String :=
  blockString '\'' (
    (List.singleton <$> satisfy fun c => isStringChar c && c != '\'')
    <|> (List.singleton <$> stringBreak))

/-- Whether a character may stand in a key without quotes. -/
def isBareChar (c : Char) : Bool := c.isAlphanum || c == '-' || c == '_'

/-- One part of a key, with the blanks around it. -/
def keyPart : Read String := do
  blanks
  let part ← (String.ofList <$> span1 isBareChar) <|> basicString <|> literalString
  blanks
  return part

/-- The least depth that is too deep, for the parts of a key and for the items of an item. -/
def depthLimit : Nat := 80

/-- A key : parts with dots in between. -/
def key : Read (List String) := do
  let parts ← separated keyPart (char '.')
  guard (parts.length < depthLimit)
  return parts

/-! ## Numbers and dates -/

/-- Whether a character is a decimal digit. -/
def isDigit (c : Char) : Bool := '0' ≤ c && c ≤ '9'

/-- Digits, with single underscores between them allowed. -/
def digits (test : Char → Bool) : Read (List Char) := do
  let groups ← separated (span1 test) (char '_')
  return groups.flatten

/-- The number that digits of a base denote. -/
def number (base : Nat) (cs : List Char) : Nat :=
  cs.foldl (fun n c => base * n + (hexDigit? c).getD 0) 0

/-- An integer of 64 bits. -/
def bounded (i : Int) : Read Int := do
  guard (Int64.minValue.toInt ≤ i && i ≤ Int64.maxValue.toInt)
  return i

/-- An integer with a mark for its base. -/
def basedInt (mark : String) (base : Nat) : Read Int := do
  word mark
  let cs ← digits fun c => (hexDigit? c).any (· < base)
  bounded (number base cs)

/-- A sign, and whether it is a minus. -/
def sign : Read Bool :=
  (do char '-'; return true) <|> (do char '+'; return false) <|> return false

/-- Decimal digits without a leading zero. -/
def wholeDigits : Read (List Char) := do
  let cs ← digits isDigit
  guard (cs.length = 1 || cs.head? != some '0')
  return cs

/-- A decimal integer. -/
def decimalInt : Read Int := do
  let negative ← sign
  let n := number 10 (← wholeDigits)
  bounded (if negative then -n else n)

/-- An integer in any base. -/
def int : Read Int :=
  basedInt "0x" 16 <|> basedInt "0o" 8 <|> basedInt "0b" 2 <|> decimalInt

/-- The part of a float from its exponent mark on : the power of ten that it denotes. -/
def exponent : Read Int := do
  let _ ← satisfy fun c => c == 'e' || c == 'E'
  let negative ← sign
  let n := number 10 (← digits isDigit)
  return if negative then -n else n

/-- The digits after the point of a float. -/
def fraction : Read (List Char) := do
  char '.'
  digits isDigit

/-- What follows the whole digits of a float : the digits after the point and the power of ten. -/
def floatTail : Read (List Char × Int) :=
  (do
    let cs ← fraction
    let power ← optional exponent
    return (cs, power.getD 0))
  <|> (do return ([], ← exponent))

/-- A float. One that is spelled in digits may not be too large for a double, unless it is
negative. -/
def float : Read Unit := do
  let negative ← sign
  word "inf" <|> word "nan" <|> (do
    let whole ← wholeDigits
    let (cs, power) ← floatTail
    let bits := Decimal.nearestDecimal (number 10 (whole ++ cs)) (power - cs.length)
    guard (negative || bits < Decimal.infinityBits))

/-- A number of exactly so many digits. -/
def fixedNumber (count : Nat) : Read Nat := do
  let cs ← (List.replicate count ()).mapM fun _ => satisfy isDigit
  return number 10 cs

/-- A number of two digits between two bounds. -/
def field (low high : Nat) : Read Unit := do
  let n ← fixedNumber 2
  guard (low ≤ n && n ≤ high)

/-- The number of days of a month. -/
def daysIn (year month : Nat) : Nat :=
  if month = 2 then
    if year % 4 = 0 && (year % 100 != 0 || year % 400 = 0) then 29 else 28
  else if month = 4 || month = 6 || month = 9 || month = 11 then 30
  else 31

/-- A day of a month of a year. -/
def day : Read Unit := do
  let year ← fixedNumber 4
  char '-'
  let month ← fixedNumber 2
  guard (1 ≤ month && month ≤ 12)
  char '-'
  field 1 (daysIn year month)

/-- A time of day. -/
def time : Read Unit := do
  field 0 23
  char ':'
  field 0 59
  char ':'
  field 0 60
  let _ ← optional (do char '.'; let _ ← span1 isDigit)

/-- The distance of a local time from the universal one. -/
def offset : Read Unit :=
  (do let _ ← satisfy fun c => c == 'Z' || c == 'z')
  <|> (do
    let _ ← satisfy fun c => c == '+' || c == '-'
    field 0 23
    char ':'
    field 0 59)

/-- A date, a time, or both. -/
def date : Read Unit :=
  (do
    day
    let _ ← optional do
      let _ ← satisfy fun c => c == 'T' || c == 't' || c == ' '
      time
      let _ ← optional offset)
  <|> time

/-! ## Items -/

/-- The items of an array, given how to read one. -/
def arrayOf (item : Read Item) : Read (List Item) := do
  char '['
  layout
  let items ← separated (do layout; let i ← item; layout; return i) (char ',') <|> return []
  if !items.isEmpty then
    let _ ← optional (char ',')
  layout
  char ']'
  return items

/-- A key, an equals sign and an item, given how to read one. -/
def pair (item : Read Item) : Read (List String × Item) := do
  let k ← key
  char '='
  blanks
  let i ← item
  return (k, i)

/-- The entries of a table on one line, given how to read an item. -/
def inlineOf (item : Read Item) : Read Entries := do
  char '\x7b'
  blanks
  let pairs ← separated (do let p ← pair item; blanks; return p) (char ',') <|> return []
  blanks
  char '\x7d'
  pairs.foldlM (fun entries (k, i) => StateT.lift (Entries.addDotted? i k entries)) []

/-- An item that holds no others. -/
def leaf : Read Item :=
  (.string <$> (basicBlock <|> literalBlock <|> basicString <|> literalString))
  <|> (.date <$> taken date)
  <|> (.float <$> taken float)
  <|> (.int <$> int)
  <|> (do word "true"; return .bool true)
  <|> (do word "false"; return .bool false)

/-- An item that holds at most so many levels of others. -/
def item : Nat → Read Item
  | 0 => leaf
  | n + 1 => leaf <|> (.array <$> arrayOf (item n)) <|> (.table .inline <$> inlineOf (item n))

/-! ## Documents -/

/-- A line of a document. -/
inductive Line where
  | blank
  | header (path : List String) (element : Bool)
  | pair (key : List String) (item : Item)

/-- A line that names a table. -/
def header : Read Line :=
  (do
    word "[["
    let path ← key
    word "]]"
    lineEnd
    return .header path true)
  <|> (do
    char '['
    let path ← key
    char ']'
    lineEnd
    return .header path false)

/-- One line, with at least one character. -/
def line : Read Line := do
  guard !(← get).isEmpty
  (do lineEnd; return .blank)
    <|> (do blanks; header)
    <|> (do
      blanks
      let (k, i) ← pair (item (depthLimit - 1))
      lineEnd
      return .pair k i)

/-- All lines of a text. -/
def lines : Read (List Line) := do
  let _ ← optional (char '\ufeff')
  let found ← many line
  atEnd
  return found

end Read

/-- Enters a line in a document. -/
def Draft.enter? (d : Draft) : Read.Line → Option Draft
  | .blank => some d
  | .header path element => d.openAt? path element
  | .pair key item => d.add? key item

/-- Reads a document. -/
def read? (text : String) : Option Item := do
  let (lines, _) ← Read.lines text.toList
  let draft ← lines.foldlM Draft.enter? {}
  return .table .header draft.entries

end Rill.Toml
