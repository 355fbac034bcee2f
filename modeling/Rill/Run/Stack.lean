import Rill.Value.Basic

/-!
# The stack of frames

A frame binds names to symbols in the order in which they were added. The stack holds the global
frame, which is never dropped, and the frames pushed over it, the innermost first. A name is
looked up from the innermost frame outwards through the whole stack, so what a function calls sees
the frames of its caller.
-/

namespace Rill

/-- How a name was bound. -/
inductive SymbolKind where
  | var
  | const
  | func
deriving DecidableEq, Repr

/-- What a name is bound to. -/
structure Symbol where
  kind : SymbolKind
  value : Value

/-- The bindings of one scope, the oldest first. -/
structure Frame where
  entries : List (String × Symbol) := []

namespace Frame

/-- The symbol of a name. -/
def get? (f : Frame) (name : String) : Option Symbol := f.entries.lookup name

/-- Whether a name is bound. -/
def contains (f : Frame) (name : String) : Bool := (f.get? name).isSome

/-- The number of bindings. -/
def size (f : Frame) : Nat := f.entries.length

/-- Whether nothing is bound. -/
def isEmpty (f : Frame) : Bool := f.entries.isEmpty

/-- Binds a name, unless it is bound already. -/
def add? (f : Frame) (name : String) (symbol : Symbol) : Option Frame :=
  if f.contains name then none else some ⟨f.entries ++ [(name, symbol)]⟩

/-- Entries with the value of the first binding of a name replaced, if the name is bound. -/
def setIn? (name : String) (value : Value) :
    List (String × Symbol) → Option (List (String × Symbol))
  | [] => none
  | (other, symbol) :: rest =>
    if name == other then some ((other, { symbol with value := value }) :: rest)
    else (setIn? name value rest).map ((other, symbol) :: ·)

/-- Replaces the value of a bound name. -/
def set? (f : Frame) (name : String) (value : Value) : Option Frame :=
  (setIn? name value f.entries).map Frame.mk

end Frame

/-- The frames of a run. -/
structure Stack where
  inner : List Frame := []
  bottom : Frame := {}

namespace Stack

/-- The frames, the innermost first. -/
def frames (s : Stack) : List Frame := s.inner ++ [s.bottom]

/-- The number of frames. -/
def depth (s : Stack) : Nat := s.inner.length + 1

/-- Opens a frame. -/
def push (s : Stack) : Stack := { s with inner := {} :: s.inner }

/-- Drops the innermost frame, unless it is the global one. -/
def pop (s : Stack) : Stack := { s with inner := s.inner.tail }

/-- Drops every frame but the global one. -/
def reset (s : Stack) : Stack := { s with inner := [] }

/-- Binds a name in the innermost frame, unless it is bound there already. -/
def add? (s : Stack) (name : String) (symbol : Symbol) : Option Stack :=
  match s.inner with
  | [] => (s.bottom.add? name symbol).map fun f => { s with bottom := f }
  | top :: rest => (top.add? name symbol).map fun f => { s with inner := f :: rest }

/-- The symbol of a name in the first of some frames that binds it. -/
def findIn? (name : String) : List Frame → Option Symbol
  | [] => none
  | f :: rest => f.get? name <|> findIn? name rest

/-- The symbol of a name in the innermost frame that binds it. -/
def find? (s : Stack) (name : String) : Option Symbol :=
  findIn? name s.inner <|> s.bottom.get? name

/-- Replaces the value of a name in the first of some frames that binds it. -/
def setIn? (name : String) (value : Value) : List Frame → Option (List Frame)
  | [] => none
  | f :: rest =>
    match f.set? name value with
    | some new => some (new :: rest)
    | none => (setIn? name value rest).map (f :: ·)

/-- Replaces the value of a name in the innermost frame that binds it. -/
def set? (s : Stack) (name : String) (value : Value) : Option Stack :=
  match setIn? name value s.inner with
  | some inner => some { s with inner := inner }
  | none => (s.bottom.set? name value).map fun f => { s with bottom := f }

end Stack

end Rill
