import Rill.Decimal.Shortest

/-!
# Writing doubles

Two ways to write a double by its shortest digits. `display` is always positional. `literal`
keeps a fractional part on whole numbers and uses an exponent outside `[10^-4, 10^16)`.
`pieces` gives the display in the runs in which it is written out one after the other;
`display` is their concatenation.
-/

namespace Rill.Decimal

/-- A run of `n` zeros. -/
def zeros (n : Nat) : String :=
  String.ofList (List.replicate n '0')

/-- The text of `n` zeros in runs of at most 64. -/
def zeroRuns (n : Nat) : List String :=
  List.replicate (n / 64) (zeros 64) ++ (if n % 64 = 0 then [] else [zeros (n % 64)])

/-- The digits of a decimal, most significant first. -/
def Digits.chars (d : Digits) : List Char :=
  Nat.toDigits 10 d.digits

/-- How many digits stand before the decimal point; negative for zeros right after it. -/
def Digits.point (d : Digits) : Int :=
  d.chars.length + d.exponent

/-- A positive decimal written positionally, in runs. -/
def Digits.positional (d : Digits) : List String :=
  let p := d.point
  if p ≤ 0 then ["0."] ++ zeroRuns (-p).toNat ++ [String.ofList d.chars]
  else if p < d.chars.length then
    [String.ofList (d.chars.take p.toNat), ".", String.ofList (d.chars.drop p.toNat)]
  else [String.ofList d.chars] ++ zeroRuns d.exponent.toNat

/-- A positive decimal with an exponent : one digit, the others after a point, and the
power of ten. -/
def Digits.scientific (d : Digits) : String :=
  let head := String.ofList (d.chars.take 1)
  let tail := d.chars.drop 1
  let fraction := if tail.isEmpty then "" else "." ++ String.ofList tail
  head ++ fraction ++ "e" ++ toString (d.point - 1)

/-- The sign of a written number. -/
def sign (negative : Bool) : List String :=
  if negative then ["-"] else []

/-- A double written positionally, in runs. -/
def pieces (x : Float) : List String :=
  match parts x with
  | .nan => ["NaN"]
  | .infinite negative => sign negative ++ ["inf"]
  | .finite negative m q =>
    sign negative ++ (if m = 0 then ["0"] else (shortest m q).positional)

/-- A double written positionally. -/
def display (x : Float) : String :=
  String.join (pieces x)

/-- A double as a literal shows it. -/
def literal (x : Float) : String :=
  match parts x with
  | .nan => "NaN"
  | .infinite negative => String.join (sign negative ++ ["inf"])
  | .finite negative m q =>
    if m = 0 then String.join (sign negative ++ ["0.0"])
    else
      let d := shortest m q
      if d.point < -3 ∨ 16 < d.point then String.join (sign negative ++ [d.scientific])
      else
        let whole := if d.chars.length ≤ d.point then [".0"] else []
        String.join (sign negative ++ d.positional ++ whole)

end Rill.Decimal
