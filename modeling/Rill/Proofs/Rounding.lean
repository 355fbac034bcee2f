import Mathlib.Algebra.Order.Field.Power
import Mathlib.Algebra.Order.Ring.Abs
import Mathlib.Data.Rat.Floor
import Mathlib.Tactic.FieldSimp
import Mathlib.Tactic.Linarith
import Mathlib.Tactic.Positivity
import Rill.Decimal.Binary64

/-!
# The nearest double

Doubles without a sign are ordered as their patterns are, and `magnitude` is the number that a
pattern stands for. A pattern is nearest to a rational number if it is closer to it than every
other, or as close and even (`Nearest`); there is only one such pattern (`Nearest.unique`). Rounding
a decimal number gives it (`nearest_nearestDecimal`), whatever its digits and its exponent.

From the pattern `k · 2^52 + 2^52` on all magnitudes are multiples of `spacing k`
(`exists_multiple`), and below it they are smaller than `2^52 · spacing k`. So a number from there
on is rounded by rounding its quotient by `spacing k` to an integer (`nearest_of_quotient`), and
`nearest` picks `k` so that this integer has 53 bits.
-/

namespace Rill.Decimal

/-! ## What patterns stand for -/

/-- The number that a double stands for, its sign aside. Infinity counts as the number that would
come after the largest finite one. -/
def Parts.magnitude : Parts → ℚ
  | .finite _ significand exponent => significand * 2 ^ exponent
  | .infinite _ => 2 ^ (1024 : ℤ)
  | .nan => 0

/-- The number that a pattern without a sign stands for. -/
def magnitude (bits : ℕ) : ℚ :=
  (partsOfBits (UInt64.ofNat bits)).magnitude

theorem ofMagnitude_false (bits : ℕ) : ofMagnitude false bits = Float.ofBits (UInt64.ofNat bits) :=
  rfl

/-- How far apart the magnitudes of neighbours are from the pattern `k · 2^52` to the pattern
`(k + 2) · 2^52`, or the half of it. -/
def spacing (k : ℕ) : ℚ :=
  2 ^ ((k : ℤ) - 1074)

theorem spacing_pos (k : ℕ) : 0 < spacing k := by
  unfold spacing
  positivity

/-- The spacing doubles with each power of two. -/
theorem spacing_add (k i : ℕ) : spacing (k + i) = 2 ^ i * spacing k := by
  rw [spacing, spacing, ← zpow_natCast, ← zpow_add₀ two_ne_zero]
  congr 1
  push_cast
  ring

theorem hiddenBit_mul_spacing (k : ℕ) : (hiddenBit : ℚ) * spacing k = 2 ^ ((k : ℤ) - 1022) := by
  have hbit : (hiddenBit : ℚ) = 2 ^ (52 : ℤ) := by norm_num [hiddenBit]
  rw [hbit, spacing, ← zpow_add₀ two_ne_zero]
  congr 1
  ring

/-- A pattern without a sign is taken apart by its exponent. -/
theorem partsOfBits_ofNat {n : ℕ} (h : n ≤ infinityBits) : partsOfBits (UInt64.ofNat n) =
    if n / hiddenBit = 2047 then .infinite false
    else if n / hiddenBit = 0 then .finite false n (-1074)
    else .finite false (n % hiddenBit + hiddenBit) ((n / hiddenBit : ℕ) - 1075) := by
  rw [infinityBits] at h
  have hn : (UInt64.ofNat n).toNat = n :=
    UInt64.toNat_ofNat_of_lt' (by rw [hiddenBit] at h; rw [UInt64.size]; omega)
  have hsign : ¬ n ≥ signBit := by rw [hiddenBit] at h; rw [signBit]; omega
  have hfield : n / hiddenBit % 2048 = n / hiddenBit := by rw [hiddenBit] at h ⊢; omega
  have hlast : n / hiddenBit = 2047 → n % hiddenBit = 0 := by rw [hiddenBit] at h ⊢; omega
  have hfirst : n / hiddenBit = 0 → n % hiddenBit = n := by rw [hiddenBit]; omega
  simp only [partsOfBits, hn, hfield, hsign, decide_false]
  split
  next hinfinite => rw [if_pos (hlast hinfinite)]
  next =>
    split
    next hsmall => rw [hfirst hsmall]
    next => rfl

/-- The magnitude of a pattern, by the power of two and the significand that it is made of. -/
theorem magnitude_of_lt {k r : ℕ} (hr : hiddenBit ≤ r ∨ k = 0) (hlt : r < 2 * hiddenBit)
    (hle : k * hiddenBit + r ≤ infinityBits) : magnitude (k * hiddenBit + r) = r * spacing k := by
  have hpos : 0 < hiddenBit := by decide
  rw [magnitude, partsOfBits_ofNat hle]
  by_cases hsmall : r < hiddenBit
  · obtain rfl : k = 0 := hr.resolve_left (Nat.not_le.2 hsmall)
    simp [Nat.div_eq_of_lt hsmall, Parts.magnitude, spacing]
  · have hfield : (k * hiddenBit + r) / hiddenBit = k + 1 := by
      rw [hiddenBit] at *
      omega
    have hfraction : (k * hiddenBit + r) % hiddenBit + hiddenBit = r := by
      rw [hiddenBit] at *
      omega
    rw [hfield, hfraction]
    split
    next hlast =>
      -- only the pattern of infinity has this field
      obtain rfl : r = hiddenBit := by
        rw [infinityBits] at hle
        rw [hiddenBit] at *
        omega
      obtain rfl : k = 2046 := by omega
      rw [hiddenBit_mul_spacing]
      rfl
    next =>
      rw [if_neg (Nat.succ_ne_zero k), Parts.magnitude, spacing]
      congr 2
      push_cast
      ring

/-- The magnitude of a pattern is its significand times the spacing, also where the next power of
two starts. -/
theorem magnitude_eq {k r : ℕ} (hr : hiddenBit ≤ r ∨ k = 0) (hle : r ≤ 2 * hiddenBit)
    (hbits : k * hiddenBit + r ≤ infinityBits) : magnitude (k * hiddenBit + r) = r * spacing k := by
  obtain hlt | rfl := Nat.lt_or_eq_of_le hle
  · exact magnitude_of_lt hr hlt hbits
  · have hnext : k * hiddenBit + 2 * hiddenBit = (k + 1) * hiddenBit + hiddenBit := by ring
    rw [hnext] at hbits ⊢
    rw [magnitude_of_lt (.inl (Nat.le_refl _)) (by decide) hbits, spacing_add]
    push_cast
    ring

/-- Every pattern is made of a power of two and a significand. -/
theorem exists_significand (n : ℕ) :
    ∃ k r, n = k * hiddenBit + r ∧ r < 2 * hiddenBit ∧ (hiddenBit ≤ r ∨ k = 0) := by
  by_cases hsmall : n < hiddenBit
  · exact ⟨0, n, by simp, by omega, .inr rfl⟩
  · refine ⟨n / hiddenBit - 1, n % hiddenBit + hiddenBit, ?_, ?_, .inl (Nat.le_add_left _ _)⟩
    all_goals
      rw [hiddenBit] at *
      omega

/-- Neighbouring patterns have growing magnitudes. -/
theorem magnitude_lt_succ {n : ℕ} (h : n < infinityBits) : magnitude n < magnitude (n + 1) := by
  obtain ⟨k, r, rfl, hlt, hr⟩ := exists_significand n
  have hsucc : hiddenBit ≤ r + 1 ∨ k = 0 := hr.imp_left Nat.le_succ_of_le
  rw [magnitude_of_lt hr hlt h.le, Nat.add_assoc, magnitude_eq hsucc hlt h]
  have hpos := spacing_pos k
  push_cast
  linarith

/-- Larger patterns have larger magnitudes. -/
theorem magnitude_lt {m n : ℕ} (hlt : m < n) (h : n ≤ infinityBits) :
    magnitude m < magnitude n := by
  induction n, hlt using Nat.le_induction with
  | base => exact magnitude_lt_succ h
  | succ n _ ih => exact (ih (Nat.le_of_succ_le h)).trans (magnitude_lt_succ h)

/-- A magnitude belongs to one pattern. -/
theorem magnitude_inj {m n : ℕ} (hm : m ≤ infinityBits) (hn : n ≤ infinityBits)
    (h : magnitude m = magnitude n) :
    m = n := by
  obtain hlt | heq | hlt := Nat.lt_trichotomy m n
  · exact absurd h (magnitude_lt hlt hn).ne
  · exact heq
  · exact absurd h (magnitude_lt hlt hm).ne'

/-- Infinity counts as the number after the largest finite one. -/
theorem magnitude_infinityBits : magnitude infinityBits = 2 ^ (1024 : ℤ) := by
  rw [magnitude, partsOfBits_ofNat (Nat.le_refl _)]
  rfl

/-- From the pattern with significand `2^52` on, magnitudes are multiples of the spacing there. -/
theorem exists_multiple {k n : ℕ} (h : k = 0 ∨ k * hiddenBit + hiddenBit ≤ n)
    (hn : n ≤ infinityBits) :
    ∃ j : ℕ, magnitude n = j * spacing k := by
  obtain ⟨k', r, rfl, hlt, hr⟩ := exists_significand n
  have hk : k ≤ k' := by
    obtain rfl | h := h
    · exact Nat.zero_le _
    · rw [hiddenBit] at *
      omega
  obtain ⟨i, rfl⟩ := Nat.exists_eq_add_of_le hk
  refine ⟨r * 2 ^ i, ?_⟩
  rw [magnitude_of_lt hr hlt hn, spacing_add]
  push_cast
  ring

/-! ## The nearest pattern -/

/-- Of two patterns, the first is closer to a number than the second, or as close and even. -/
def Closer (x : ℚ) (m n : ℕ) : Prop :=
  |magnitude m - x| < |magnitude n - x| ∨ |magnitude m - x| = |magnitude n - x| ∧ m % 2 = 0

/-- The pattern of the double that a number is rounded to. -/
structure Nearest (x : ℚ) (bits : ℕ) : Prop where
  bounded : bits ≤ infinityBits
  closest : ∀ n ≤ infinityBits, n ≠ bits → Closer x bits n

theorem Closer.le {x : ℚ} {m n : ℕ} (h : Closer x m n) : |magnitude m - x| ≤ |magnitude n - x| :=
  h.elim le_of_lt fun h => h.1.le

/-- What lies between two numbers at the same distance is closer than they are. -/
theorem abs_sub_lt_of_between {x a b c : ℚ} (hab : a < b) (hbc : b < c) (h : |a - x| = |c - x|) :
    |b - x| < |a - x| := by
  obtain heq | heq := abs_eq_abs.1 h
  · linarith
  · rw [abs_of_neg (by linarith : a - x < 0), abs_lt]
    constructor <;> linarith

/-- A number is rounded to one double only. -/
theorem Nearest.unique {x : ℚ} {m n : ℕ} (hm : Nearest x m) (hn : Nearest x n) : m = n := by
  wlog hlt : m < n generalizing m n
  · by_contra hne
    exact hne (this hn hm (by omega)).symm
  have hclose := hm.closest n hn.bounded hlt.ne'
  have hclose' := hn.closest m hm.bounded hlt.ne
  have heq := le_antisymm hclose.le hclose'.le
  -- the pattern after the smaller one is the larger one, or it is closer than both
  obtain hnext | rfl := Nat.lt_or_eq_of_le (Nat.succ_le_of_lt hlt)
  · have hbetween := abs_sub_lt_of_between (magnitude_lt_succ (hlt.trans_le hn.bounded))
      (magnitude_lt hnext hn.bounded) heq
    have hle := (hm.closest (m + 1) (hnext.le.trans hn.bounded) (Nat.succ_ne_self m)).le
    exact absurd hbetween (not_lt.2 hle)
  · have heven := (hclose.resolve_left heq.not_lt).2
    have heven' := (hclose'.resolve_left heq.not_gt).2
    omega

/-- If one multiple is at most half a step away from a number, all others are at least
that far away. -/
theorem half_le_abs_sub {x step : ℚ} (hstep : 0 < step) {r j : ℕ} (hr : |r * step - x| ≤ step / 2)
    (hj : j ≠ r) :
    step / 2 ≤ |j * step - x| := by
  have hone : (1 : ℚ) ≤ |(j : ℚ) - r| := by
    have hint : (1 : ℤ) ≤ |(j : ℤ) - r| := Int.one_le_abs (sub_ne_zero.2 (by exact_mod_cast hj))
    exact_mod_cast hint
  have happart : step ≤ |j * step - r * step| := by
    rw [← sub_mul, abs_mul, abs_of_pos hstep]
    exact le_mul_of_one_le_left hstep.le hone
  have htriangle := abs_sub_le (j * step) x (r * step)
  rw [abs_sub_comm x] at htriangle
  linarith

/-- A number that is close enough to a multiple of the spacing is rounded to it. -/
theorem nearest_of_multiple {x : ℚ} {k r : ℕ} (hr : hiddenBit ≤ r ∨ k = 0) (hle : r ≤ 2 * hiddenBit)
    (hbits : k * hiddenBit + r ≤ infinityBits) (hlow : k = 0 ∨ hiddenBit * spacing k ≤ x)
    (herror : |r * spacing k - x| ≤ spacing k / 2)
    (heven : |r * spacing k - x| = spacing k / 2 → r % 2 = 0) : Nearest x (k * hiddenBit + r) := by
  have hpos := spacing_pos k
  have hmagnitude := magnitude_eq hr hle hbits
  have hmultiple : ∀ j : ℕ, j ≠ r → spacing k / 2 ≤ |j * spacing k - x| :=
    fun j => half_le_abs_sub hpos herror
  refine ⟨hbits, fun n hn hne => ?_⟩
  rw [Closer, hmagnitude]
  by_cases hgrid : k = 0 ∨ k * hiddenBit + hiddenBit ≤ n
  · obtain ⟨j, hj⟩ := exists_multiple hgrid hn
    have hjr : j ≠ r := by
      rintro rfl
      exact hne (magnitude_inj hn hbits (hj.trans hmagnitude.symm))
    rw [hj]
    obtain hlt | heq := (herror.trans (hmultiple j hjr)).lt_or_eq
    · exact .inl hlt
    · have htie : |r * spacing k - x| = spacing k / 2 := le_antisymm herror (heq ▸ hmultiple j hjr)
      have hparity := heven htie
      refine .inr ⟨heq, ?_⟩
      rw [hiddenBit]
      omega
  · -- below the multiples, all magnitudes are smaller than the least of them that counts
    obtain ⟨hk, hbelow⟩ : k ≠ 0 ∧ n < k * hiddenBit + hiddenBit := by rwa [not_or, not_le] at hgrid
    have hleast : k * hiddenBit + hiddenBit ≤ infinityBits :=
      (Nat.add_le_add_left (hr.resolve_right hk) _).trans hbits
    have hsmall := magnitude_lt hbelow hleast
    rw [magnitude_eq (.inl (Nat.le_refl _)) (by decide) hleast] at hsmall
    have hx := hlow.resolve_left hk
    have hcompare : |r * spacing k - x| ≤ |hiddenBit * spacing k - x| := by
      by_cases heq : hiddenBit = r
      · rw [heq]
      · exact herror.trans (hmultiple _ heq)
    left
    rw [abs_of_nonpos (by linarith : hiddenBit * spacing k - x ≤ 0)] at hcompare
    rw [abs_of_neg (by linarith : magnitude n - x < 0)]
    linarith

/-- A number from `2^1024` on is rounded to infinity. -/
theorem nearest_infinityBits {x : ℚ} (h : 2 ^ (1024 : ℤ) ≤ x) : Nearest x infinityBits := by
  refine ⟨Nat.le_refl _, fun n hn hne => .inl ?_⟩
  have hlt := magnitude_lt (Nat.lt_of_le_of_ne hn hne) (Nat.le_refl _)
  rw [magnitude_infinityBits] at hlt ⊢
  rw [abs_of_nonpos (by linarith), abs_of_neg (by linarith)]
  linarith

/-- A number below half of the least magnitude is rounded to zero. -/
theorem nearest_zero {x : ℚ} (hx : 0 ≤ x) (h : x < spacing 0 / 2) : Nearest x 0 := by
  have hzero : |((0 : ℕ) : ℚ) * spacing 0 - x| = x := by simp [abs_of_nonneg hx]
  exact nearest_of_multiple (k := 0) (r := 0) (.inr rfl) (Nat.zero_le _) (Nat.zero_le _) (.inl rfl)
    (hzero.trans_le h.le) fun _ => rfl

theorem nearest_zero_zero : Nearest 0 0 :=
  nearest_zero (le_refl 0) (half_pos (spacing_pos 0))

/-- The same for the pattern that `encode` makes, which is that of infinity for too
large numbers. -/
theorem nearest_encode {x : ℚ} {k r : ℕ} (hr : hiddenBit ≤ r ∨ k = 0) (hle : r ≤ 2 * hiddenBit)
    (hlow : k = 0 ∨ hiddenBit * spacing k ≤ x) (herror : |r * spacing k - x| ≤ spacing k / 2)
    (heven : |r * spacing k - x| = spacing k / 2 → r % 2 = 0) :
    Nearest x (encode r (k - 1074)) := by
  have hencode : encode r (k - 1074) = min (k * hiddenBit + r) infinityBits := by simp [encode]
  rw [hencode]
  by_cases hbits : k * hiddenBit + r ≤ infinityBits
  · rw [min_eq_left hbits]
    exact nearest_of_multiple hr hle hbits hlow herror heven
  · rw [min_eq_right (Nat.le_of_not_le hbits)]
    have hk : 2046 ≤ k := by
      rw [infinityBits] at hbits
      rw [hiddenBit] at *
      omega
    have hx := hlow.resolve_left (by omega)
    rw [hiddenBit_mul_spacing] at hx
    exact nearest_infinityBits ((zpow_le_zpow_right₀ one_le_two (by omega)).trans hx)

/-- A number is rounded by rounding its quotient by the spacing, if that has 53 bits, or fewer
with the least spacing. -/
theorem nearest_of_quotient {x : ℚ} {k r : ℕ} (hlow : k = 0 ∨ hiddenBit * spacing k ≤ x)
    (hhigh : x < 2 * hiddenBit * spacing k) (herror : |(r : ℚ) - x / spacing k| ≤ 1 / 2)
    (heven : |(r : ℚ) - x / spacing k| = 1 / 2 → r % 2 = 0) : Nearest x (encode r (k - 1074)) := by
  have hstep := spacing_pos k
  have hdistance : |r * spacing k - x| = spacing k * |(r : ℚ) - x / spacing k| := by
    nth_rewrite 2 [← abs_of_pos hstep]
    rw [← abs_mul, mul_sub, mul_div_cancel₀ _ hstep.ne', mul_comm]
  have hhalf : spacing k / 2 = spacing k * (1 / 2) := by ring
  have hnear := abs_le.1 herror
  have hupper : r ≤ 2 * hiddenBit := by
    rw [← div_lt_iff₀ hstep] at hhigh
    have hlt : (r : ℚ) < (2 * hiddenBit + 1 : ℕ) := by
      push_cast
      linarith
    exact Nat.lt_succ_iff.1 (by exact_mod_cast hlt)
  have hlower : hiddenBit ≤ r ∨ k = 0 := by
    refine hlow.symm.imp_left fun hle => ?_
    rw [← le_div_iff₀ hstep] at hle
    have hlt : (hiddenBit : ℚ) < (r + 1 : ℕ) := by
      push_cast
      linarith
    exact Nat.lt_succ_iff.1 (by exact_mod_cast hlt)
  refine nearest_encode hlower hupper hlow ?_ fun htie => heven ?_
  · rw [hdistance, hhalf]
    exact mul_le_mul_of_nonneg_left herror hstep.le
  · rw [hdistance, hhalf] at htie
    exact mul_left_cancel₀ hstep.ne' htie

/-! ## Rounding -/

/-- A quotient is rounded to an integer at most one half away, and to an even one if it is
one half away. -/
theorem roundQuotient_error (num : ℕ) {den : ℕ} (hden : 0 < den) :
    |(roundQuotient num den : ℚ) - num / den| ≤ 1 / 2 ∧
      (|(roundQuotient num den : ℚ) - num / den| = 1 / 2 → roundQuotient num den % 2 = 0) := by
  have hden' : (0 : ℚ) < den := by exact_mod_cast hden
  have hquotient : (num : ℚ) / den = (num / den : ℕ) + (num % den : ℕ) / den := by
    have hdivision : (num : ℚ) = den * (num / den : ℕ) + (num % den : ℕ) := by
      exact_mod_cast (Nat.div_add_mod num den).symm
    rw [div_eq_iff hden'.ne', add_mul, div_mul_cancel₀ _ hden'.ne', mul_comm]
    exact hdivision
  have hless : ((num % den : ℕ) : ℚ) / den < 1 := by
    rw [div_lt_one hden']
    exact_mod_cast Nat.mod_lt num hden
  have hnonneg : (0 : ℚ) ≤ ((num % den : ℕ) : ℚ) / den := by positivity
  have hhalf : ((num % den : ℕ) : ℚ) / den = 1 / 2 ↔ den = 2 * (num % den) := by
    rw [div_eq_div_iff hden'.ne' two_ne_zero, one_mul, mul_comm]
    exact_mod_cast eq_comm
  rw [hquotient, roundQuotient]
  simp only [Bool.or_eq_true, Bool.and_eq_true, decide_eq_true_eq, beq_iff_eq]
  split
  next hup =>
    have hge : (1 : ℚ) / 2 ≤ ((num % den : ℕ) : ℚ) / den := by
      rw [div_le_div_iff₀ two_pos hden', one_mul, mul_comm]
      exact_mod_cast (by omega : den ≤ 2 * (num % den))
    have herror : |((num / den + 1 : ℕ) : ℚ) - ((num / den : ℕ) + (num % den : ℕ) / den)| =
        1 - (num % den : ℕ) / den := by
      push_cast
      rw [abs_of_nonneg (by linarith)]
      ring
    rw [herror]
    refine ⟨by linarith, fun htie => ?_⟩
    have hden := hhalf.1 (by linarith)
    omega
  next hdown =>
    have hle : ((num % den : ℕ) : ℚ) / den ≤ 1 / 2 := by
      rw [div_le_div_iff₀ hden' two_pos, one_mul, mul_comm]
      exact_mod_cast (by omega : 2 * (num % den) ≤ den)
    have herror : |((num / den : ℕ) : ℚ) - ((num / den : ℕ) + (num % den : ℕ) / den)| =
        (num % den : ℕ) / den := by
      rw [sub_add_cancel_left, abs_neg, abs_of_nonneg hnonneg]
    rw [herror]
    refine ⟨hle, fun htie => ?_⟩
    have hden := hhalf.1 htie
    omega

/-- What `scaled` gives stands for the quotient by a power of two. -/
theorem scaled_eq (num : ℕ) {den : ℕ} (hden : 0 < den) (q : ℤ) :
    0 < (scaled num den q).2 ∧
    ((scaled num den q).1 : ℚ) / (scaled num den q).2 = num / den / 2 ^ q := by
  unfold scaled
  split
  next hq =>
    refine ⟨Nat.mul_pos hden (Nat.pow_pos two_pos), ?_⟩
    have hpow : ((Nat.pow 2 q.toNat : ℕ) : ℚ) = 2 ^ q := by
      rw [Nat.pow_eq, Nat.cast_pow, ← zpow_natCast, Int.toNat_of_nonneg hq, Nat.cast_ofNat]
    rw [Nat.cast_mul, hpow, div_div]
  next hq =>
    refine ⟨hden, ?_⟩
    have hpow : ((Nat.pow 2 (-q).toNat : ℕ) : ℚ) = (2 ^ q)⁻¹ := by
      rw [Nat.pow_eq, Nat.cast_pow, ← zpow_natCast, Int.toNat_of_nonneg (by omega),
        Nat.cast_ofNat, zpow_neg]
    rw [Nat.cast_mul, hpow]
    ring

/-- The exponent for which `nearest` rounds to an integer. -/
def quotientExponent (num den : ℕ) : ℤ :=
  let guess : ℤ := (num.log2 : ℤ) - den.log2 - 53
  let s := scaled num den guess
  max (-1074) (if s.1 / s.2 ≥ 2 * hiddenBit then guess + 1 else guess)

/-- A quotient is rounded to an integer for its exponent and then encoded. -/
theorem nearest_eq {num : ℕ} (hnum : num ≠ 0) (den : ℕ) :
    nearest num den =
      encode
        (roundQuotient (scaled num den (quotientExponent num den)).1
          (scaled num den (quotientExponent num den)).2) (quotientExponent num den) := by
  rw [nearest, if_neg hnum]
  rfl

/-- A number lies between the power of two that its logarithm gives and the next one. -/
theorem two_pow_log2_le {n : ℕ} (h : n ≠ 0) :
    (2 : ℚ) ^ (n.log2 : ℤ) ≤ n ∧ (n : ℚ) < 2 ^ ((n.log2 : ℤ) + 1) := by
  have hlt : (n : ℚ) < 2 ^ (n.log2 + 1) := by exact_mod_cast Nat.lt_log2_self
  refine ⟨?_, by exact_mod_cast hlt⟩
  rw [zpow_natCast]
  exact_mod_cast Nat.log2_self_le h

/-- The exponent that the logarithms give is right or one too small. -/
theorem guess_bounds {num den : ℕ} (hnum : num ≠ 0) (hden : den ≠ 0) {guess : ℤ}
    (hguess : guess = (num.log2 : ℤ) - den.log2 - 53) :
    hiddenBit * 2 ^ guess ≤ (num : ℚ) / den ∧
    (num : ℚ) / den < 2 * hiddenBit * 2 ^ (guess + 1) := by
  have hbit : (hiddenBit : ℚ) = 2 ^ (52 : ℤ) := by norm_num [hiddenBit]
  have hden' : (0 : ℚ) < den := by exact_mod_cast Nat.pos_of_ne_zero hden
  obtain ⟨hnumLow, hnumHigh⟩ := two_pow_log2_le hnum
  obtain ⟨hdenLow, hdenHigh⟩ := two_pow_log2_le hden
  rw [le_div_iff₀ hden', div_lt_iff₀ hden', hbit]
  constructor
  · calc (2 : ℚ) ^ (52 : ℤ) * 2 ^ guess * den
        ≤ 2 ^ (52 : ℤ) * 2 ^ guess * 2 ^ ((den.log2 : ℤ) + 1) := by gcongr
      _ = 2 ^ (num.log2 : ℤ) := by
        rw [← zpow_add₀ two_ne_zero, ← zpow_add₀ two_ne_zero, hguess]
        congr 1
        ring
      _ ≤ num := hnumLow
  · calc (num : ℚ)
        < 2 ^ ((num.log2 : ℤ) + 1) := hnumHigh
      _ = 2 * 2 ^ (52 : ℤ) * 2 ^ (guess + 1) * 2 ^ (den.log2 : ℤ) := by
        rw [← zpow_one_add₀ two_ne_zero, ← zpow_add₀ two_ne_zero, ← zpow_add₀ two_ne_zero, hguess]
        congr 1
        ring
      _ ≤ 2 * 2 ^ (52 : ℤ) * 2 ^ (guess + 1) * den := by gcongr

/-- The quotient by that power of two has 53 bits, or fewer if the exponent is the least one. -/
theorem quotientExponent_bounds {num den : ℕ} (hnum : num ≠ 0) (hden : den ≠ 0) :
    -1074 ≤ quotientExponent num den ∧
      (num : ℚ) / den < 2 * hiddenBit * 2 ^ quotientExponent num den ∧
      (quotientExponent num den = -1074 ∨
        hiddenBit * 2 ^ quotientExponent num den ≤ (num : ℚ) / den) := by
  unfold quotientExponent
  simp only
  generalize hguess : (num.log2 : ℤ) - den.log2 - 53 = guess
  obtain ⟨hlow, hhigh⟩ := guess_bounds hnum hden hguess.symm
  obtain ⟨hpos, hscaled⟩ := scaled_eq num (Nat.pos_of_ne_zero hden) guess
  have hpos' : (0 : ℚ) < (scaled num den guess).2 := by exact_mod_cast hpos
  have htest : (scaled num den guess).1 / (scaled num den guess).2 ≥ 2 * hiddenBit ↔
      2 * hiddenBit * 2 ^ guess ≤ (num : ℚ) / den := by
    rw [ge_iff_le, Nat.le_div_iff_mul_le hpos, ← le_div_iff₀ (zpow_pos two_pos guess), ← hscaled,
      le_div_iff₀ hpos']
    exact_mod_cast Iff.rfl
  generalize hexponent :
    (if (scaled num den guess).1 / (scaled num den guess).2 ≥ 2 * hiddenBit then guess + 1
    else guess) = e
  have hbounds : hiddenBit * 2 ^ e ≤ (num : ℚ) / den ∧ (num : ℚ) / den < 2 * hiddenBit * 2 ^ e := by
    split at hexponent
    next hlarge =>
      subst hexponent
      refine ⟨?_, hhigh⟩
      rw [zpow_add_one₀ two_ne_zero]
      linarith [htest.1 hlarge]
    next hsmall =>
      subst hexponent
      exact ⟨hlow, not_le.1 (mt htest.2 hsmall)⟩
  obtain hle | hle := le_total (-1074) e
  · rw [max_eq_right hle]
    exact ⟨hle, hbounds.2, .inr hbounds.1⟩
  · rw [max_eq_left hle]
    refine ⟨le_refl _, hbounds.2.trans_le ?_, .inl rfl⟩
    gcongr
    exact one_le_two

/-- `nearest` gives the pattern of the nearest double. -/
theorem nearest_nearest (num : ℕ) {den : ℕ} (hden : den ≠ 0) :
    Nearest (num / den) (nearest num den) := by
  by_cases hnum : num = 0
  · subst hnum
    rw [nearest, if_pos rfl, Nat.cast_zero, zero_div]
    exact nearest_zero_zero
  rw [nearest_eq hnum]
  obtain ⟨hleast, hhigh, hlow⟩ := quotientExponent_bounds hnum hden
  generalize quotientExponent num den = q at hleast hhigh hlow ⊢
  obtain ⟨k, rfl⟩ : ∃ k : ℕ, q = k - 1074 := ⟨(q + 1074).toNat, by omega⟩
  have hspacing : (2 : ℚ) ^ ((k : ℤ) - 1074) = spacing k := rfl
  obtain ⟨hpos, hscaled⟩ := scaled_eq num (Nat.pos_of_ne_zero hden) (k - 1074)
  obtain ⟨herror, heven⟩ := roundQuotient_error (scaled num den (k - 1074)).1 hpos
  rw [hscaled, hspacing] at herror heven
  rw [hspacing] at hhigh hlow
  exact nearest_of_quotient (hlow.imp_left (by omega)) hhigh herror heven

/-- A positive number lies between the powers of ten that the count of its digits gives. -/
theorem ten_pow_length_toDigits {n : ℕ} (h : n ≠ 0) :
    (10 : ℚ) ^ (((Nat.toDigits 10 n).length : ℤ) - 1) ≤ n ∧
    (n : ℚ) < 10 ^ ((Nat.toDigits 10 n).length : ℤ) := by
  obtain ⟨m, hm⟩ : ∃ m, (Nat.toDigits 10 n).length = m + 1 :=
    Nat.exists_eq_succ_of_ne_zero Nat.length_toDigits_pos.ne'
  have hupper : n < 10 ^ (m + 1) :=
    (Nat.length_toDigits_le_iff (by decide) (Nat.succ_pos m)).1 hm.le
  have hlower : 10 ^ m ≤ n := by
    obtain rfl | hpos := Nat.eq_zero_or_pos m
    · exact Nat.pos_of_ne_zero h
    · by_contra hlt
      have hle := (Nat.length_toDigits_le_iff (by decide) hpos).2 (Nat.lt_of_not_le hlt)
      omega
  rw [hm]
  refine ⟨?_, by rw [zpow_natCast]; exact_mod_cast hupper⟩
  rw [Nat.cast_succ, add_sub_cancel_right, zpow_natCast]
  exact_mod_cast hlower

/-- From `10^400` on a decimal is too large for a double. -/
theorem two_pow_le_ten_pow : (2 : ℚ) ^ (1024 : ℤ) ≤ 10 ^ (400 : ℤ) := by
  have hlimit : 2 ^ 1024 ≤ 10 ^ 400 := by decide +kernel
  exact_mod_cast hlimit

/-- Below `10^-401` a decimal is too small for a double. -/
theorem ten_pow_lt_half_spacing : (10 : ℚ) ^ (-401 : ℤ) < spacing 0 / 2 := by
  have hlimit : 2 ^ 1075 < 10 ^ 401 := by decide +kernel
  have hhalf : spacing 0 / 2 = (2 ^ (1075 : ℤ))⁻¹ := by
    rw [← zpow_neg, div_eq_iff two_ne_zero, ← zpow_add_one₀ two_ne_zero]
    rfl
  rw [hhalf, zpow_neg]
  exact inv_strictAnti₀ (by positivity) (by exact_mod_cast hlimit)

/-- Decimal numbers are rounded to the nearest double. -/
theorem nearest_nearestDecimal (digits : ℕ) (exponent : ℤ) :
    Nearest (digits * 10 ^ exponent) (nearestDecimal digits exponent) := by
  unfold nearestDecimal
  split
  next hzero =>
    rw [hzero, Nat.cast_zero, zero_mul]
    exact nearest_zero_zero
  next hdigits =>
    obtain ⟨hlow, hhigh⟩ := ten_pow_length_toDigits hdigits
    simp only
    split
    next hlarge =>
      refine nearest_infinityBits ?_
      calc (2 : ℚ) ^ (1024 : ℤ) ≤ 10 ^ (400 : ℤ) := two_pow_le_ten_pow
        _ ≤ 10 ^ (((Nat.toDigits 10 digits).length : ℤ) - 1 + exponent) :=
          zpow_le_zpow_right₀ (by norm_num) (by omega)
        _ = 10 ^ (((Nat.toDigits 10 digits).length : ℤ) - 1) * 10 ^ exponent :=
          zpow_add₀ (by norm_num) _ _
        _ ≤ digits * 10 ^ exponent := by gcongr
    next =>
      split
      next hsmall =>
        refine nearest_zero (by positivity) ?_
        calc (digits : ℚ) * 10 ^ exponent
            < 10 ^ ((Nat.toDigits 10 digits).length : ℤ) * 10 ^ exponent := by gcongr
          _ = 10 ^ (((Nat.toDigits 10 digits).length : ℤ) + exponent) :=
            (zpow_add₀ (by norm_num) _ _).symm
          _ ≤ 10 ^ (-401 : ℤ) := zpow_le_zpow_right₀ (by norm_num) (by omega)
          _ < spacing 0 / 2 := ten_pow_lt_half_spacing
      next =>
        split
        next hnonneg =>
          have hvalue : (digits : ℚ) * 10 ^ exponent =
              (digits * Nat.pow 10 exponent.toNat : ℕ) / (1 : ℕ) := by
            obtain ⟨e, rfl⟩ := Int.eq_ofNat_of_zero_le hnonneg
            simp
          rw [hvalue]
          exact nearest_nearest _ one_ne_zero
        next hneg =>
          have hvalue : (digits : ℚ) * 10 ^ exponent =
              digits / (Nat.pow 10 (-exponent).toNat : ℕ) := by
            obtain ⟨e, he⟩ := Int.eq_ofNat_of_zero_le (by omega : 0 ≤ -exponent)
            obtain rfl : exponent = -(e : ℤ) := by omega
            simp [div_eq_mul_inv]
          rw [hvalue]
          exact nearest_nearest _ (Nat.pow_pos (by decide)).ne'

end Rill.Decimal
