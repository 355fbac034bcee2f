import Rill.Decimal.Binary64
import Rill.Text.Class

/-!
# Number words

`Number.read?` decides what a number word denotes. A word is an integer, decimal or with the mark
of radix 16, 8 or 2, or a double with a fraction, an exponent or both. Underscores may stand
anywhere among the digits and are ignored, but a run of underscores alone is no number. Integers
must fit in 64 bits with a sign.
-/

namespace Rill

/-- What a number word denotes. -/
inductive Number where
  | int (value : Int64)
  | float (value : Float)
deriving Repr

namespace Number

/-- The value of a digit, in any radix up to 16. -/
def digitValue? (c : Char) : Option Nat :=
  if '0' ≤ c ∧ c ≤ '9' then some (c.toNat - '0'.toNat)
  else if 'a' ≤ c ∧ c ≤ 'f' then some (c.toNat - 'a'.toNat + 10)
  else if 'A' ≤ c ∧ c ≤ 'F' then some (c.toNat - 'A'.toNat + 10)
  else none

/-- Whether a character is a digit of the radix. -/
def isDigitOf (radix : Nat) (c : Char) : Bool :=
  match digitValue? c with
  | some d => d < radix
  | none => false

/-- Whether a character may stand in a run of digits. -/
def inRun (radix : Nat) (c : Char) : Bool :=
  isDigitOf radix c || c == '_'

/-- The digits of a run, its underscores left out. -/
def clean (run : List Char) : List Char :=
  run.filter (· != '_')

/-- The number that a sequence of digits denotes in a radix. -/
def positional (radix : Nat) (digits : List Char) : Nat :=
  digits.foldl (fun n c => n * radix + (digitValue? c).getD 0) 0

/-- The least natural number that is too large for an integer : `2^63`. -/
def limit : Nat := 9223372036854775808

/-- The integer of a run of digits. -/
def int? (radix : Nat) (run : List Char) : Option Number :=
  let digits := clean run
  let n := positional radix digits
  if digits.isEmpty ∨ limit ≤ n then none else some (.int (Int64.ofNat n))

/-- A word that consists of a radix mark and a run of digits. -/
def marked? : List Char → Option (Nat × List Char)
  | '0' :: m :: run => do
    let radix ← match m with
      | 'x' | 'X' => some 16
      | 'o' | 'O' => some 8
      | 'b' | 'B' => some 2
      | _ => none
    guard (!run.isEmpty && run.all (inRun radix))
    return (radix, run)
  | _ => none

/-- The parts of a double : the runs before and after the point, and the sign and run of the
exponent. -/
structure Spelling where
  whole : List Char
  fraction : List Char
  exponent : Option (Bool × List Char)
deriving DecidableEq, Repr

/-- A sign, if there is one, and the rest. The flag says minus. -/
def sign : List Char → Bool × List Char
  | '-' :: rest => (true, rest)
  | '+' :: rest => (false, rest)
  | rest => (false, rest)

/-- The exponent that a text consists of. -/
def exponent? : List Char → Option (Bool × List Char)
  | c :: rest => do
    guard (c == 'e' || c == 'E')
    let (negative, run) := sign rest
    guard (!run.isEmpty && run.all (inRun 10))
    return (negative, run)
  | [] => none

/-- Takes a double's word apart. -/
def spelling? (word : List Char) : Option Spelling := do
  let whole := word.takeWhile (inRun 10)
  guard (!whole.isEmpty)
  match word.dropWhile (inRun 10) with
  | '.' :: rest =>
    let fraction := rest.takeWhile (inRun 10)
    guard (!fraction.isEmpty)
    match rest.dropWhile (inRun 10) with
    | [] => return ⟨whole, fraction, none⟩
    | tail => return ⟨whole, fraction, some (← exponent? tail)⟩
  | tail => return ⟨whole, [], some (← exponent? tail)⟩

/-- The power of ten that an exponent denotes; none if it has no digit. -/
def Spelling.power? (d : Spelling) : Option Int :=
  match d.exponent with
  | none => some 0
  | some (negative, run) =>
    let digits := clean run
    if digits.isEmpty then none
    else
      let n := positional 10 digits
      some (if negative then -(n : Int) else n)

/-- The double that a word's parts denote. -/
def Spelling.value? (d : Spelling) : Option Float := do
  let fraction := clean d.fraction
  let digits := clean d.whole ++ fraction
  guard (!digits.isEmpty)
  let power ← d.power?
  return Decimal.ofMagnitude false
    (Decimal.nearestDecimal (positional 10 digits) (power - fraction.length))

/-- What a number word denotes. -/
def read? (word : String) : Option Number :=
  let cs := word.toList
  match marked? cs with
  | some (radix, run) => int? radix run
  | none =>
    match spelling? cs with
    | some d => d.value?.map .float
    | none => if !cs.isEmpty && cs.all (inRun 10) then int? 10 cs else none

end Number

end Rill
