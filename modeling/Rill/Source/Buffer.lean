import Rill.Source.Position

/-!
# Source buffers

A buffer is a named text. Places in it are given by byte offset or by location, and the table of
line starts connects the two : `location?` finds the line of an offset and counts the characters
before it, `offset?` walks from the start of a line. A line ends at a line feed, a carriage
return, or the two together.
-/

namespace Rill

/-- A named text. -/
structure Buffer where
  name : String
  text : String
deriving DecidableEq, Repr

/-- Why a character cannot be read at an offset. -/
inductive SourceError where
  | outOfRange (offset size : Nat)
  | insideCharacter (offset : Nat)
deriving DecidableEq, Repr

/-- The wording of a source error. -/
def SourceError.message : SourceError → String
  | .outOfRange offset size => s!"offset {offset} is out of range for a buffer of {size} bytes"
  | .insideCharacter offset => s!"offset {offset} is not on a character boundary"

/-- The number of bytes of a text. -/
def byteLength : List Char → Nat
  | [] => 0
  | c :: cs => c.utf8Size + byteLength cs

/-- Splits a text after its first `n` bytes; fails if that is inside a character or past the end. -/
def splitAtByte? : Nat → List Char → Option (List Char × List Char)
  | 0, cs => some ([], cs)
  | _ + 1, [] => none
  | n + 1, c :: cs =>
    if c.utf8Size ≤ n + 1 then
      (splitAtByte? (n + 1 - c.utf8Size) cs).map fun (a, b) => (c :: a, b)
    else none

/-- The offsets right after each line break, for a text that starts at offset `o`. -/
def lineStartsAfter (o : Nat) : List Char → List Nat
  | [] => []
  | '\r' :: '\n' :: cs => (o + 2) :: lineStartsAfter (o + 2) cs
  | c :: cs =>
    if c = '\n' ∨ c = '\r' then (o + 1) :: lineStartsAfter (o + 1) cs
    else lineStartsAfter (o + c.utf8Size) cs

namespace Buffer

/-- A buffer for text that came from no file. -/
def anonymous (text : String) : Buffer :=
  ⟨"<input>", text⟩

variable (b : Buffer)

/-- The characters of the text. -/
def chars : List Char := b.text.toList

/-- The size of the text in bytes. -/
def size : Nat := byteLength b.chars

/-- The offset at which each line starts. -/
def lineStarts : List Nat := 0 :: lineStartsAfter 0 b.chars

/-- The number of lines. -/
def lineCount : Nat := b.lineStarts.length

/-- The text from one offset to another, if both lie between characters and in order. -/
def between? (start stop : Nat) : Option (List Char) := do
  guard (start ≤ stop)
  let (_, rest) ← splitAtByte? start b.chars
  let (found, _) ← splitAtByte? (stop - start) rest
  return found

/-- The character that starts at an offset. -/
def charAt (offset : Nat) : Except SourceError Char :=
  if b.size ≤ offset then .error (.outOfRange offset b.size)
  else
    match splitAtByte? offset b.chars with
    | some (_, c :: _) => .ok c
    | _ => .error (.insideCharacter offset)

/-- The byte at an offset, zero past the end. -/
def byteAt (offset : Nat) : UInt8 :=
  b.text.toUTF8.data[offset]?.getD 0

/-- The location of an offset, the end of the text for a larger one. Offsets inside a
character have none. -/
def location? (offset : Nat) : Option Location :=
  let o := min offset b.size
  let before := b.lineStarts.filter (· ≤ o)
  (b.between? (before.getLast?.getD 0) o).map fun cs => ⟨before.length, cs.length + 1⟩

/-- The range between two offsets. -/
def range? (start stop : Nat) : Option Range := do
  return ⟨← b.location? start, ← b.location? stop⟩

/-- The offset of a location. A column past the end of the text means its end. -/
def offset? (l : Location) : Option Nat :=
  if l.line = 0 ∨ l.column = 0 then none
  else do
    let start ← b.lineStarts[l.line - 1]?
    let (_, rest) ← splitAtByte? start b.chars
    return start + byteLength (rest.take (l.column - 1))

/-- The text of a range. -/
def slice? (r : Range) : Option String := do
  let start ← b.offset? r.start
  let stop ← b.offset? r.stop
  return String.ofList (← b.between? start stop)

end Buffer

end Rill
