import Rill.Source.Buffer

/-!
# Cursors

A cursor walks a text character by character and keeps its offset and location up to date
without looking at the line table. A carriage return ends a line unless a line feed
follows, which then ends it.
-/

namespace Rill

/-- A place in a text : what is left of it, how many bytes came before, and the location. -/
structure Cursor where
  rest : List Char
  offset : Nat
  location : Location
deriving DecidableEq, Repr

/-- A character together with the place where it stands. -/
structure Placed where
  char : Char
  offset : Nat
  location : Location
deriving DecidableEq, Repr

/-- The location after a character that stands before `rest`. -/
def Location.after (l : Location) (c : Char) (rest : List Char) : Location :=
  if c = '\n' ∨ (c = '\r' ∧ rest.head? ≠ some '\n') then ⟨l.line + 1, 1⟩ else ⟨l.line, l.column + 1⟩

namespace Cursor

/-- The cursor at the start of a buffer. -/
def start (b : Buffer) : Cursor :=
  ⟨b.chars, 0, .origin⟩

/-- Whether nothing is left. -/
def atEnd (c : Cursor) : Bool :=
  c.rest.isEmpty

/-- The next character and the cursor after it. -/
def next? (c : Cursor) : Option (Placed × Cursor) :=
  match c.rest with
  | [] => none
  | ch :: rest =>
    some (⟨ch, c.offset, c.location⟩, ⟨rest, c.offset + ch.utf8Size, c.location.after ch rest⟩)

/-- The cursor after `n` more characters, or at the end of the text. -/
def advance : Nat → Cursor → Cursor
  | 0, c => c
  | n + 1, c =>
    match c.next? with
    | none => c
    | some (_, c') => advance n c'

/-- All characters from the cursor on. -/
def toList (c : Cursor) : List Placed :=
  go c.rest c.offset c.location
where
  /-- The characters of `rest`, the first of which stands at the given place. -/
  go : List Char → Nat → Location → List Placed
    | [], _, _ => []
    | ch :: rest, offset, location =>
      ⟨ch, offset, location⟩ :: go rest (offset + ch.utf8Size) (location.after ch rest)

/-- The cursor at an offset of the buffer, or at its end. Offsets inside a character have none. -/
def seek? (b : Buffer) (offset : Nat) : Option Cursor := do
  let o := min offset b.size
  let (_, rest) ← splitAtByte? o b.chars
  return ⟨rest, o, ← b.location? o⟩

end Cursor

end Rill
