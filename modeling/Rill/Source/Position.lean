/-!
# Locations and ranges

A location is a line and a column, both counted from one; columns count characters. A range runs
from its start up to but not including its stop. The range with zeros everywhere stands for an
unknown place, and `Range.merge` treats it as neutral.
-/

namespace Rill

/-- A line and a column. -/
structure Location where
  line : Nat
  column : Nat
deriving DecidableEq, Repr, Inhabited

namespace Location

/-- Locations are ordered as they follow one another in a text. -/
instance : LT Location where
  lt a b := a.line < b.line ∨ a.line = b.line ∧ a.column < b.column

instance : LE Location where
  le a b := a.line < b.line ∨ a.line = b.line ∧ a.column ≤ b.column

instance (a b : Location) : Decidable (a < b) :=
  inferInstanceAs (Decidable (a.line < b.line ∨ a.line = b.line ∧ a.column < b.column))

instance (a b : Location) : Decidable (a ≤ b) :=
  inferInstanceAs (Decidable (a.line < b.line ∨ a.line = b.line ∧ a.column ≤ b.column))

instance : Min Location := minOfLe
instance : Max Location := maxOfLe

/-- The location that stands for no place. -/
def unknown : Location := ⟨0, 0⟩

/-- The first location of every text. -/
def origin : Location := ⟨1, 1⟩

/-- A location written as line and column. -/
def text (l : Location) : String :=
  s!"{l.line}:{l.column}"

/-- How two locations are ordered. -/
def order (a b : Location) : Ordering :=
  if a < b then .lt else if a = b then .eq else .gt

end Location

/-- A stretch of text, its stop excluded. -/
structure Range where
  start : Location
  stop : Location
deriving DecidableEq, Repr, Inhabited

namespace Range

/-- The range that stands for no place. -/
def unknown : Range := ⟨.unknown, .unknown⟩

/-- Whether the range stands for no place. -/
def isUnknown (r : Range) : Bool :=
  r == unknown

/-- The least range that covers both; an unknown side adds nothing. -/
def merge (a b : Range) : Range :=
  if a.isUnknown then b
  else if b.isUnknown then a
  else ⟨min a.start b.start, max a.stop b.stop⟩

/-- Whether a location lies in the range. -/
def contains (r : Range) (l : Location) : Bool :=
  r.start ≤ l && l < r.stop

/-- A range written as its start and stop. -/
def text (r : Range) : String :=
  s!"{r.start.text}-{r.stop.text}"

end Range

end Rill
