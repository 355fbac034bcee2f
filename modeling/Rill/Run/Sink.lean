/-!
# Output

A sink takes the text that a run writes, piece by piece. It may have a limit in bytes; a piece that
would pass the limit is refused as a whole. Apart from that it decides on its own, by what it has
taken before : for any reason it may refuse a piece, after it has taken some of its characters.
An empty piece is never refused, as there is nothing to take.
-/

namespace Rill

/-- That a sink refuses a piece of text : what it says, and how many characters it takes before. -/
structure Refusal where
  message : String
  taken : Nat := 0
deriving DecidableEq, Repr

/-- Where output goes : the pieces taken so far, the last one first; a limit in bytes; and the
sink's own refusals, by the pieces taken before. -/
structure Sink where
  written : List String := []
  limit : Option Nat := none
  refuses : List String → String → Option Refusal := fun _ _ => none

namespace Sink

/-- All that has been written. -/
def text (s : Sink) : String := String.join s.written.reverse

/-- Whether a sink has room for some more bytes. -/
def hasRoom (s : Sink) (bytes : Nat) : Bool :=
  match s.limit with
  | some limit => s.text.utf8ByteSize + bytes ≤ limit
  | none => true

/-- Why a piece of text is refused, if it is. -/
def refusal? (s : Sink) (piece : String) : Option Refusal :=
  if piece.isEmpty then none
  else if s.hasRoom piece.utf8ByteSize then s.refuses s.written piece
  else some ⟨"sink full", 0⟩

/-- Takes a piece of text, or the beginning of one. -/
def take (s : Sink) (piece : String) : Sink :=
  if piece.isEmpty then s else { s with written := piece :: s.written }

/-- Writes pieces of text up to the first that is refused, and tells why that one is. -/
def writeAll (s : Sink) : List String → Option String × Sink
  | [] => (none, s)
  | piece :: rest =>
    match s.refusal? piece with
    | none => (s.take piece).writeAll rest
    | some refusal =>
      (some refusal.message, s.take (String.ofList (piece.toList.take refusal.taken)))

/-- What is taken comes after what has been written before. -/
theorem text_take (s : Sink) (piece : String) : (s.take piece).text = s.text ++ piece := by
  unfold take
  split
  · rename_i h
    rw [String.isEmpty_iff.1 h, String.append_empty]
  · simp [text]

end Sink

end Rill
