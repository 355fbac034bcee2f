/-!
# Double-precision numbers as integers times powers of two

A finite double is `m · 2^q` with `m < 2^53` and `q ≥ -1074`. `parts` takes a double apart,
`nearest` gives the double closest to a quotient (a half goes to the even neighbour), and
`remainder` is the exact remainder of two doubles. All three work on natural numbers, so nothing
in them is rounded twice.
-/

namespace Rill.Decimal

/-- What a double denotes. -/
inductive Parts where
  | nan
  | infinite (negative : Bool)
  | finite (negative : Bool) (significand : Nat) (exponent : Int)
deriving DecidableEq, Repr

/-- The weight of the leading bit of a full significand, which a pattern leaves out : `2^52`. -/
def hiddenBit : Nat := 4503599627370496

/-- The weight of the sign in a pattern : `2^63`. -/
def signBit : Nat := 9223372036854775808

/-- Takes a bit pattern apart. -/
def partsOfBits (bits : UInt64) : Parts :=
  let n := bits.toNat
  let negative := n ≥ signBit
  let field : Nat := n / hiddenBit % 2048
  let fraction := n % hiddenBit
  if field = 2047 then (if fraction = 0 then .infinite negative else .nan)
  else if field = 0 then .finite negative fraction (-1074)
  else .finite negative (fraction + hiddenBit) ((field : Int) - 1075)

/-- Takes a double apart. -/
def parts (x : Float) : Parts :=
  partsOfBits x.toBits

/-- The pattern of positive infinity. -/
def infinityBits : Nat := 2047 * hiddenBit

/-- The pattern of `n · 2^q`, for `n ≤ 2^53` and `q ≥ -1074` with `n ≥ 2^52` unless `q = -1074`. Too
large a value is infinite. -/
def encode (n : Nat) (q : Int) : Nat :=
  min ((q + 1074).toNat * hiddenBit + n) infinityBits

/-- The double with the given sign and pattern of its magnitude. -/
def ofMagnitude (negative : Bool) (bits : Nat) : Float :=
  Float.ofBits (UInt64.ofNat (if negative then bits + signBit else bits))

/-- The quotient `num / den` rounded to the nearest integer, a half to the even one. -/
def roundQuotient (num den : Nat) : Nat :=
  let q := num / den
  let r := num % den
  if den < 2 * r || (den == 2 * r && q % 2 == 1) then q + 1 else q

/-- The number `num / den / 2^q` as a quotient of natural numbers. -/
def scaled (num den : Nat) (q : Int) : Nat × Nat :=
  if 0 ≤ q then (num, den * Nat.pow 2 q.toNat) else (num * Nat.pow 2 (-q).toNat, den)

/-- The pattern of the double nearest to `num / den`. -/
def nearest (num den : Nat) : Nat :=
  if num = 0 then 0
  else
    let guess : Int := (num.log2 : Int) - den.log2 - 53
    let (a, b) := scaled num den guess
    let q := max (-1074) (if a / b ≥ 2 * hiddenBit then guess + 1 else guess)
    let (a, b) := scaled num den q
    encode (roundQuotient a b) q

/-- The pattern of the double nearest to `digits · 10^exponent`. Exponents far outside the range of
a double are decided by the size alone. -/
def nearestDecimal (digits : Nat) (exponent : Int) : Nat :=
  if digits = 0 then 0
  else
    let size := ((Nat.toDigits 10 digits).length : Int) + exponent
    if 400 < size then infinityBits
    else if size < -400 then 0
    else if 0 ≤ exponent then nearest (digits * Nat.pow 10 exponent.toNat) 1
    else nearest digits (Nat.pow 10 (-exponent).toNat)

/-- Shifts a significand up until it fills 53 bits or the exponent reaches its least value. -/
def normalize : Nat → Nat → Int → Nat × Int
  | 0, n, q => (n, q)
  | fuel + 1, n, q => if n < hiddenBit ∧ -1074 < q then normalize fuel (2 * n) (q - 1) else (n, q)

/-- The remainder of the truncated division : exact, with the sign of the dividend. -/
def remainder (x y : Float) : Float :=
  match parts x, parts y with
  | .nan, _ | _, .nan | .infinite _, _ => 0.0 / 0.0
  | .finite .., .infinite _ => x
  | .finite negative m p, .finite _ n q =>
    if n = 0 then 0.0 / 0.0
    else
      let e := min p q
      let r := m * Nat.pow 2 (p - e).toNat % (n * Nat.pow 2 (q - e).toNat)
      if r = 0 then ofMagnitude negative 0
      else
        let (r, e) := normalize 64 r e
        ofMagnitude negative (encode r e)

end Rill.Decimal
