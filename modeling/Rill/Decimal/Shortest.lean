import Rill.Decimal.Binary64

/-!
# The fewest digits that read back

`shortest m q` is the decimal `digits · 10^exponent` with the fewest digits among those that
round to the double `m · 2^q`, and of those the one nearest to it. The decimals that round to a
double fill an interval around it, whose ends belong to it when `m` is even. For one digit, two
digits, and so on, the two decimals on that grid around the double are tested against the
interval in exact arithmetic.
-/

namespace Rill.Decimal

/-- The decimal `digits · 10^exponent`. -/
structure Digits where
  digits : Nat
  exponent : Int
deriving DecidableEq, Repr

/-- The double `m · 2^q` as a quarter-unit quotient together with its rounding interval : the double
is `value / den`, and the decimals that round to it lie between `low / den` and `high / den`. -/
structure Interval where
  low : Nat
  value : Nat
  high : Nat
  den : Nat
  closed : Bool

/-- The rounding interval of `m · 2^q`. The gap below a power of two is half as wide. -/
def Interval.of (m : Nat) (q : Int) : Interval :=
  let narrow := m = hiddenBit ∧ -1074 < q
  let low := if narrow then 4 * m - 1 else 4 * m - 2
  let up := Nat.pow 2 (q - 2).toNat
  { low := low * up, value := 4 * m * up, high := (4 * m + 2) * up, den := Nat.pow 2 (2 - q).toNat
    closed := m % 2 == 0 }

/-- Multiplies the interval by `10^k`. -/
def Interval.shift (i : Interval) (k : Int) : Interval :=
  let up := Nat.pow 10 k.toNat
  { i with
    low := i.low * up, value := i.value * up, high := i.high * up
    den := i.den * Nat.pow 10 (-k).toNat }

/-- Whether the integer `c` lies in the interval. -/
def Interval.holds (i : Interval) (c : Nat) : Bool :=
  let n := c * i.den
  if i.closed then i.low ≤ n && n ≤ i.high else i.low < n && n < i.high

/-- An exponent `e` with `value / den ≤ 10^e`, and `10^(e - 2) < value / den`. -/
def Interval.magnitude (i : Interval) : Int :=
  if i.den ≤ i.value then (Nat.toDigits 10 (i.value / i.den)).length
  else 1 - ((Nat.toDigits 10 (i.den / i.value)).length : Int)

/-- The integer of the interval next to its value, if there is one. A half goes up. -/
def Interval.pick (i : Interval) : Option Nat :=
  let below := i.value / i.den
  let above := below + 1
  match i.holds below, i.holds above with
  | true, true => some (if 2 * (i.value % i.den) < i.den then below else above)
  | true, false => some below
  | false, true => some above
  | false, false => none

/-- Tries grids of `n`, `n + 1`, … digits. -/
def search (i : Interval) (size : Int) : Nat → Nat → Digits
  | 0, _ => ⟨i.value / i.den, 0⟩
  | fuel + 1, n =>
    match (i.shift (n - size)).pick with
    | some digits => ⟨digits, size - n⟩
    | none => search i size fuel (n + 1)

/-- Drops trailing zeros. -/
def Digits.trim : Nat → Digits → Digits
  | 0, d => d
  | fuel + 1, d =>
    if d.digits ≠ 0 ∧ d.digits % 10 = 0 then trim fuel ⟨d.digits / 10, d.exponent + 1⟩ else d

/-- The shortest decimal that rounds to `m · 2^q`, for `m` positive. -/
def shortest (m : Nat) (q : Int) : Digits :=
  let i := Interval.of m q
  (search i i.magnitude 20 1).trim 20

end Rill.Decimal
