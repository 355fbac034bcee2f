import Rill.Token.Scan

/-!
# Filtering tokens

A filter reads items from a sequence and leaves out the tokens of some kinds; faults pass. It always
holds the item that comes next, so that item can be seen before it is taken.
-/

namespace Rill

/-- A sequence of items without the tokens of the kinds in `skip`. -/
structure Filter where
  skip : List TokenKind
  pending : Option Item
  source : List Item
deriving Repr

namespace Filter

/-- The kinds that carry no meaning. -/
def trivia : List TokenKind := [.blank, .lineBreak, .comment]

/-- Whether an item is left out. -/
def leavesOut (skip : List TokenKind) : Item → Bool
  | .ok t => skip.contains t.kind
  | .error _ => false

/-- The first item that is not left out, and what follows it. -/
def pull (skip : List TokenKind) : List Item → Option Item × List Item
  | [] => (none, [])
  | item :: rest => if leavesOut skip item then pull skip rest else (some item, rest)

/-- A filter over a sequence. -/
def ofItems (skip : List TokenKind) (source : List Item) : Filter :=
  let (pending, source) := pull skip source
  ⟨skip, pending, source⟩

/-- The item that comes next. -/
def peek (f : Filter) : Option Item := f.pending

/-- Takes the item that comes next. -/
def next (f : Filter) : Option Item × Filter :=
  match f.pending with
  | none => (none, f)
  | some item => (some item, ofItems f.skip f.source)

/-- The next `n` items. -/
def take : Nat → Filter → List Item
  | 0, _ => []
  | n + 1, f =>
    match f.next with
    | (none, _) => []
    | (some item, f') => item :: take n f'

/-- All items of a filter. -/
def toList (f : Filter) : List Item :=
  f.take (f.source.length + 1)

end Filter

/-- The tokens of a buffer that carry meaning. -/
def Buffer.tokens (b : Buffer) : Except LexError (List Token) :=
  Item.collect (Filter.ofItems Filter.trivia b.items).toList

end Rill
