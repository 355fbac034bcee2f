import Mathlib.Data.List.TakeWhile
import Mathlib.Data.Nat.Digits.Defs
import Rill.Proofs.Rounding
import Rill.Token.Number

/-!
# Number words

`Number.read?` accepts exactly the number words and gives their exact value (`Number.read?_exact`).
An integer word is a run of digits, after the mark of a radix or by itself, with at least one digit
among the underscores, and it denotes what its digits denote in the radix (`Number.IntWord`). A
double's word has a fraction, an exponent or both, with a digit in its mantissa and one in its
exponent, and it denotes a rational number (`Number.FloatWord`), which is rounded to the nearest
double (`Decimal.Nearest`). No word is both.

Reading tries the three forms in turn. They exclude each other (`Number.read?_marked`,
`Number.read?_written`, `Number.read?_run`), so the order does not matter.
-/

namespace Rill.Number

/-! ## The grammar -/

/-- Digits of a radix and underscores, at least one of either. -/
def IsRun (radix : ℕ) (run : List Char) : Prop :=
  run ≠ [] ∧ ∀ c ∈ run, isDigitOf radix c ∨ c = '_'

/-- A digit stands somewhere in the text. -/
def HasDigit (radix : ℕ) (cs : List Char) : Prop :=
  ∃ c ∈ cs, isDigitOf radix c

/-- The values of the digits of a run, in order. -/
def digitValues (run : List Char) : List ℕ :=
  run.filterMap digitValue?

/-- What a run denotes in a radix : the first digit has the largest weight. -/
def runValue (radix : ℕ) (run : List Char) : ℕ :=
  Nat.ofDigits radix (digitValues run).reverse

/-- The letters after which digits of another radix than ten follow. -/
def radixMarks : List (Char × ℕ) :=
  [('x', 16), ('X', 16), ('o', 8), ('O', 8), ('b', 2), ('B', 2)]

/-- A word and the natural number that it denotes. -/
inductive IntWord : List Char → ℕ → Prop
  | decimal {run : List Char} (hrun : IsRun 10 run) (hdigit : HasDigit 10 run) :
      IntWord run (runValue 10 run)
  | marked {mark : Char} {radix : ℕ} {run : List Char} (hmark : (mark, radix) ∈ radixMarks)
      (hrun : IsRun radix run) (hdigit : HasDigit radix run) :
      IntWord ('0' :: mark :: run) (runValue radix run)

/-- How an exponent is written : its letter, a sign that may be missing, and a run. -/
inductive ExponentWritten : Bool × List Char → List Char → Prop
  | unsigned {e : Char} {run : List Char} (he : e = 'e' ∨ e = 'E') (hrun : IsRun 10 run) :
      ExponentWritten (false, run) (e :: run)
  | plus {e : Char} {run : List Char} (he : e = 'e' ∨ e = 'E') (hrun : IsRun 10 run) :
      ExponentWritten (false, run) (e :: '+' :: run)
  | minus {e : Char} {run : List Char} (he : e = 'e' ∨ e = 'E') (hrun : IsRun 10 run) :
      ExponentWritten (true, run) (e :: '-' :: run)

namespace Spelling

/-- How the parts of a double are written : with a fraction, with an exponent, or with both. -/
inductive Written : Spelling → List Char → Prop
  | fraction {whole fraction : List Char} (hwhole : IsRun 10 whole)
      (hfraction : IsRun 10 fraction) :
      Written ⟨whole, fraction, none⟩ (whole ++ '.' :: fraction)
  | fractionExponent {whole fraction text : List Char} {exponent : Bool × List Char}
      (hwhole : IsRun 10 whole) (hfraction : IsRun 10 fraction)
      (hexponent : ExponentWritten exponent text) :
      Written ⟨whole, fraction, some exponent⟩ (whole ++ '.' :: (fraction ++ text))
  | exponent {whole text : List Char} {exponent : Bool × List Char} (hwhole : IsRun 10 whole)
      (hexponent : ExponentWritten exponent text) :
      Written ⟨whole, [], some exponent⟩ (whole ++ text)

/-- The mantissa has a digit, and so has the exponent if there is one. -/
def HasDigits (d : Spelling) : Prop :=
  HasDigit 10 (d.whole ++ d.fraction) ∧ ∀ e ∈ d.exponent, HasDigit 10 e.2

/-- The power of ten of an exponent. -/
def power (d : Spelling) : ℤ :=
  match d.exponent with
  | none => 0
  | some (false, run) => runValue 10 run
  | some (true, run) => -runValue 10 run

/-- The number that the parts denote. -/
def rational (d : Spelling) : ℚ :=
  (runValue 10 d.whole + runValue 10 d.fraction / 10 ^ (digitValues d.fraction).length) *
    10 ^ d.power

end Spelling

/-- A word and the rational number that it denotes. -/
def FloatWord (word : List Char) (q : ℚ) : Prop :=
  ∃ d : Spelling, d.Written word ∧ d.HasDigits ∧ d.rational = q

/-! ## Runs -/

/-- A run consists of digits of the radix and underscores. -/
theorem inRun_iff {radix : ℕ} {c : Char} : inRun radix c ↔ isDigitOf radix c ∨ c = '_' := by
  simp [inRun]

/-- A run is told by a test of each character. -/
theorem isRun_iff {radix : ℕ} {run : List Char} :
    IsRun radix run ↔ (!run.isEmpty && run.all (inRun radix)) := by
  simp [IsRun, inRun_iff]

theorem digitValue?_underscore : digitValue? '_' = none := by
  decide

/-- A digit of a radix is a character with a value below the radix. -/
theorem isDigitOf_iff {radix : ℕ} {c : Char} :
    isDigitOf radix c ↔ ∃ d < radix, digitValue? c = some d := by
  unfold isDigitOf
  cases digitValue? c <;> simp

/-- An underscore is no digit of any radix. -/
theorem ne_underscore {radix : ℕ} {c : Char} (h : isDigitOf radix c) : c ≠ '_' := by
  rintro rfl
  obtain ⟨d, -, hd⟩ := isDigitOf_iff.1 h
  rw [digitValue?_underscore] at hd
  cases hd

section

variable {radix : ℕ} {run : List Char} (h : ∀ c ∈ run, isDigitOf radix c ∨ c = '_')
include h

/-- Without its underscores, a run has the digits that count. -/
theorem map_clean : (clean run).map (fun c => (digitValue? c).getD 0) = digitValues run := by
  induction run with
  | nil => rfl
  | cons c run ih =>
    have hrest := ih fun c' hc' => h c' (List.mem_cons_of_mem c hc')
    obtain hdigit | rfl := h c List.mem_cons_self
    · obtain ⟨d, -, hd⟩ := isDigitOf_iff.1 hdigit
      simpa [clean, digitValues, ne_underscore hdigit, hd] using hrest
    · simpa [clean, digitValues, digitValue?_underscore] using hrest

/-- As many characters are left without underscores as there are digits. -/
theorem length_clean : (clean run).length = (digitValues run).length := by
  rw [← map_clean h, List.length_map]

/-- Nothing is left without underscores just when there is no digit. -/
theorem isEmpty_clean_iff : (clean run).isEmpty = true ↔ ¬HasDigit radix run := by
  rw [List.isEmpty_iff, clean, List.filter_eq_nil_iff]
  constructor
  · rintro hnone ⟨c, hc, hdigit⟩
    exact hnone c hc (by simpa using ne_underscore hdigit)
  · intro hnone c hc hne
    obtain hdigit | rfl := h c hc
    · exact hnone ⟨c, hc, hdigit⟩
    · simp at hne

end

/-- Digit by digit, the number is that of the digits with the last one first. -/
theorem positional_eq (radix : ℕ) (cs : List Char) :
    positional radix cs = Nat.ofDigits radix (cs.map fun c => (digitValue? c).getD 0).reverse := by
  rw [Nat.ofDigits_eq_foldr, List.foldr_reverse, List.foldl_map, positional]
  congr 1
  funext n c
  rw [Nat.cast_id, Nat.add_comm, Nat.mul_comm]

/-- Digits after others shift these by their number. -/
theorem positional_append (radix : ℕ) (a b : List Char) :
    positional radix (a ++ b) = positional radix a * radix ^ b.length + positional radix b := by
  rw [positional_eq, positional_eq, positional_eq, List.map_append, List.reverse_append,
    Nat.ofDigits_append, List.length_reverse, List.length_map]
  ring

/-- Underscores do not count in the number that is read. -/
theorem positional_clean {radix : ℕ} {run : List Char}
    (h : ∀ c ∈ run, isDigitOf radix c ∨ c = '_') :
    positional radix (clean run) = runValue radix run := by
  rw [positional_eq, map_clean h, runValue]

/-! ## Integers -/

theorem limit_eq : limit = 2 ^ 63 := by
  norm_num [limit]

/-- A run is read as the integer that it denotes, if it has a digit and the integer is
not too large. -/
theorem int?_eq_some_iff {radix : ℕ} {run : List Char} (h : ∀ c ∈ run, isDigitOf radix c ∨ c = '_')
    {number : Number} :
    int? radix run = some number ↔ HasDigit radix run ∧ runValue radix run < 2 ^ 63 ∧
      number = .int (Int64.ofNat (runValue radix run)) := by
  have hempty := isEmpty_clean_iff h
  rw [int?, positional_clean h, limit_eq]
  split
  next hnot =>
    refine ⟨fun hnone => (by cases hnone), fun hword => ?_⟩
    exact absurd hword.2.1 (Nat.not_lt.2 (hnot.resolve_left fun hnone => hempty.1 hnone hword.1))
  next hnot =>
    rw [not_or, hempty, not_not, Nat.not_le] at hnot
    rw [Option.some.injEq, eq_comm]
    exact ⟨fun hnumber => ⟨hnot.1, hnot.2, hnumber⟩, fun hword => hword.2.2⟩

/-- A run is read as an integer just when it has a digit and its value fits. -/
theorem int?_eq_int_iff {radix : ℕ} {run : List Char} (h : ∀ c ∈ run, isDigitOf radix c ∨ c = '_')
    {v : Int64} :
    int? radix run = some (.int v) ↔
      HasDigit radix run ∧ runValue radix run < 2 ^ 63 ∧ v.toInt = runValue radix run := by
  rw [int?_eq_some_iff h, Number.int.injEq]
  refine and_congr_right fun _ => and_congr_right fun hlt => ?_
  rw [← Int64.toInt_inj, Int64.toInt_ofNat_of_lt hlt]

/-! ## The three forms -/

theorem guard_bind_eq_some_iff {α : Type} {test : Bool} {f : Unit → Option α} {a : α} :
    (guard (test = true) : Option Unit).bind f = some a ↔ test = true ∧ f () = some a := by
  cases test <;> simp [guard]

/-- A word with a radix mark is a zero, the mark and a run of the radix. -/
theorem marked?_eq_some_iff {cs run : List Char} {radix : ℕ} : marked? cs = some (radix, run) ↔
    ∃ mark, (mark, radix) ∈ radixMarks ∧ cs = '0' :: mark :: run ∧ IsRun radix run := by
  constructor
  · intro h
    unfold marked? at h
    split at h
    next m rest =>
      split at h
      case h_7 => cases h
      all_goals
        obtain ⟨hrun, hpair⟩ := guard_bind_eq_some_iff.1 h
        obtain ⟨rfl, rfl⟩ := Prod.mk.inj (Option.some.inj hpair)
        exact ⟨_, by decide, rfl, isRun_iff.2 hrun⟩
    next => cases h
  · rintro ⟨mark, hmark, rfl, hrun⟩
    simp only [radixMarks, List.mem_cons, List.not_mem_nil, or_false, Prod.mk.injEq] at hmark
    obtain ⟨rfl, rfl⟩ | ⟨rfl, rfl⟩ | ⟨rfl, rfl⟩ | ⟨rfl, rfl⟩ | ⟨rfl, rfl⟩ | ⟨rfl, rfl⟩ := hmark
    all_goals exact guard_bind_eq_some_iff.2 ⟨isRun_iff.1 hrun, rfl⟩

/-- A run ends before a character that no run holds. -/
theorem takeWhile_run {run : List Char} (rest : List Char) (hrun : IsRun 10 run)
    (hrest : ∀ c ∈ rest.head?, inRun 10 c = false) :
    (run ++ rest).takeWhile (inRun 10) = run ∧ (run ++ rest).dropWhile (inRun 10) = rest := by
  have hall : ∀ c ∈ run, inRun 10 c := fun c hc => inRun_iff.2 (hrun.2 c hc)
  have hnone : rest.takeWhile (inRun 10) = [] ∧ rest.dropWhile (inRun 10) = rest := by
    cases rest with
    | nil => exact ⟨rfl, rfl⟩
    | cons c rest =>
      have hc : ¬inRun 10 c := by simpa using hrest c rfl
      exact ⟨List.takeWhile_cons_of_neg hc, List.dropWhile_cons_of_neg hc⟩
  rw [List.takeWhile_append_of_pos hall, List.dropWhile_append_of_pos hall, hnone.1, hnone.2,
    List.append_nil]
  exact ⟨rfl, rfl⟩

theorem sign_of_run {run : List Char} (hrun : IsRun 10 run) : sign run = (false, run) := by
  obtain ⟨hne, hall⟩ := hrun
  cases run with
  | nil => exact absurd rfl hne
  | cons c run =>
    have hc := inRun_iff.2 (hall c List.mem_cons_self)
    have hminus : c ≠ '-' := by
      rintro rfl
      exact absurd hc (by decide)
    have hplus : c ≠ '+' := by
      rintro rfl
      exact absurd hc (by decide)
    simp [sign, hminus, hplus]

/-- An exponent starts with its letter; a sign and a run follow. -/
theorem exponent?_cons_iff {c : Char} {rest : List Char} {exponent : Bool × List Char} :
    exponent? (c :: rest) = some exponent ↔
    (c = 'e' ∨ c = 'E') ∧ IsRun 10 exponent.2 ∧ sign rest = exponent := by
  have hletter : (c == 'e' || c == 'E') = true ↔ c = 'e' ∨ c = 'E' := by simp
  refine guard_bind_eq_some_iff.trans (and_congr hletter ?_)
  obtain ⟨negative, run⟩ := sign rest
  refine guard_bind_eq_some_iff.trans ?_
  rw [← isRun_iff]
  constructor
  · rintro ⟨hrun, hpair⟩
    obtain rfl := Option.some.inj hpair
    exact ⟨hrun, rfl⟩
  · rintro ⟨hrun, rfl⟩
    exact ⟨hrun, rfl⟩

/-- An exponent is read just as it is written. -/
theorem exponent?_eq_some_iff {cs : List Char} {exponent : Bool × List Char} :
    exponent? cs = some exponent ↔ ExponentWritten exponent cs := by
  constructor
  · intro h
    cases cs with
    | nil => cases h
    | cons c rest =>
      obtain ⟨hletter, hrun, hsign⟩ := exponent?_cons_iff.1 h
      unfold sign at hsign
      split at hsign
      all_goals subst hsign
      · exact .minus hletter hrun
      · exact .plus hletter hrun
      · exact .unsigned hletter hrun
  · intro h
    cases h with
    | unsigned he hrun => exact exponent?_cons_iff.2 ⟨he, hrun, sign_of_run hrun⟩
    | plus he hrun | minus he hrun => exact exponent?_cons_iff.2 ⟨he, hrun, rfl⟩

theorem IsRun.of_takeWhile {cs : List Char} (h : (!(cs.takeWhile (inRun 10)).isEmpty) = true) :
    IsRun 10 (cs.takeWhile (inRun 10)) :=
  ⟨by simpa using h, fun _ hc => inRun_iff.1 (List.mem_takeWhile_imp hc)⟩

theorem IsRun.isEmpty {run : List Char} (h : IsRun 10 run) : (!run.isEmpty) = true := by
  simpa using h.1

theorem ExponentWritten.exists_cons {exponent : Bool × List Char} {text : List Char}
    (h : ExponentWritten exponent text) : ∃ e rest, text = e :: rest ∧ (e = 'e' ∨ e = 'E') := by
  cases h with
  | unsigned he | plus he | minus he => exact ⟨_, _, rfl, he⟩

/-- The letter of an exponent does not continue a run of decimal digits. -/
theorem ExponentWritten.not_inRun {exponent : Bool × List Char} {text : List Char}
    (h : ExponentWritten exponent text) : ∀ c ∈ text.head?, inRun 10 c = false := by
  obtain ⟨e, rest, rfl, rfl | rfl⟩ := h.exists_cons <;> simp <;> decide

/-- Taking a word apart gives the parts of which it is written. -/
theorem written_of_spelling? {cs : List Char} {d : Spelling} (h : spelling? cs = some d) :
    d.Written cs := by
  obtain ⟨hguard, h⟩ := guard_bind_eq_some_iff.1 h
  have hwhole := IsRun.of_takeWhile hguard
  rw [← List.takeWhile_append_dropWhile (p := inRun 10) (l := cs)]
  clear hguard
  generalize cs.takeWhile (inRun 10) = whole at h hwhole ⊢
  generalize cs.dropWhile (inRun 10) = tail at h ⊢
  split at h
  next rest =>
    obtain ⟨hguard, h⟩ := guard_bind_eq_some_iff.1 h
    have hfraction := IsRun.of_takeWhile hguard
    rw [← List.takeWhile_append_dropWhile (p := inRun 10) (l := rest)]
    clear hguard
    generalize rest.takeWhile (inRun 10) = fraction at h hfraction ⊢
    generalize rest.dropWhile (inRun 10) = tail at h ⊢
    split at h
    next =>
      obtain rfl := Option.some.inj h
      rw [List.append_nil]
      exact .fraction hwhole hfraction
    next =>
      obtain ⟨exponent, hexponent, h⟩ := Option.bind_eq_some_iff.1 h
      obtain rfl := Option.some.inj h
      exact .fractionExponent hwhole hfraction (exponent?_eq_some_iff.1 hexponent)
  next =>
    obtain ⟨exponent, hexponent, h⟩ := Option.bind_eq_some_iff.1 h
    obtain rfl := Option.some.inj h
    exact .exponent hwhole (exponent?_eq_some_iff.1 hexponent)

/-- What is written as a double is taken apart into its parts. -/
theorem spelling?_of_written {cs : List Char} {d : Spelling} (h : d.Written cs) :
    spelling? cs = some d := by
  cases h with
  | @fraction whole fraction hwhole hfraction =>
    obtain ⟨htake, hdrop⟩ := takeWhile_run ('.' :: fraction) hwhole (by simp; decide)
    obtain ⟨htake', hdrop'⟩ := takeWhile_run [] hfraction (by simp)
    rw [List.append_nil] at htake' hdrop'
    rw [spelling?, htake, hdrop]
    refine guard_bind_eq_some_iff.2 ⟨hwhole.isEmpty, ?_⟩
    simp only [htake', hdrop']
    exact guard_bind_eq_some_iff.2 ⟨hfraction.isEmpty, rfl⟩
  | @fractionExponent whole fraction text exponent hwhole hfraction hexponent =>
    obtain ⟨htake, hdrop⟩ := takeWhile_run ('.' :: (fraction ++ text)) hwhole (by simp; decide)
    obtain ⟨htake', hdrop'⟩ := takeWhile_run text hfraction hexponent.not_inRun
    obtain ⟨e, rest, rfl, -⟩ := hexponent.exists_cons
    rw [spelling?, htake, hdrop]
    refine guard_bind_eq_some_iff.2 ⟨hwhole.isEmpty, ?_⟩
    simp only [htake', hdrop']
    refine guard_bind_eq_some_iff.2 ⟨hfraction.isEmpty, ?_⟩
    exact Option.bind_eq_some_iff.2 ⟨exponent, exponent?_eq_some_iff.2 hexponent, rfl⟩
  | @exponent whole text exponent hwhole hexponent =>
    obtain ⟨htake, hdrop⟩ := takeWhile_run text hwhole hexponent.not_inRun
    rw [spelling?, htake, hdrop]
    refine guard_bind_eq_some_iff.2 ⟨hwhole.isEmpty, ?_⟩
    have hread := exponent?_eq_some_iff.2 hexponent
    -- The letter of the exponent is no point, so there is no fraction to read.
    obtain ⟨e, rest, rfl, rfl | rfl⟩ := hexponent.exists_cons
    all_goals exact Option.bind_eq_some_iff.2 ⟨exponent, hread, rfl⟩

/-- A word is taken apart into the parts of a double just when it is written with them. -/
theorem spelling?_eq_some_iff {cs : List Char} {d : Spelling} :
    spelling? cs = some d ↔ d.Written cs :=
  ⟨written_of_spelling?, spelling?_of_written⟩

/-! ## Doubles -/

namespace Spelling

/-- The parts that a word is written of are runs, or a fraction that is missing. -/
theorem Written.runs {cs : List Char} {d : Spelling} (h : d.Written cs) :
    (∀ c ∈ d.whole, isDigitOf 10 c ∨ c = '_') ∧ (∀ c ∈ d.fraction, isDigitOf 10 c ∨ c = '_') ∧
      ∀ e ∈ d.exponent, ∀ c ∈ e.2, isDigitOf 10 c ∨ c = '_' := by
  have hrun : ∀ {exponent : Bool × List Char} {text : List Char}, ExponentWritten exponent text →
      ∀ e ∈ some exponent, ∀ c ∈ e.2, isDigitOf 10 c ∨ c = '_' := by
    rintro exponent text hexponent e he
    obtain rfl := Option.some.inj he
    cases hexponent with
    | unsigned _ hrun | plus _ hrun | minus _ hrun => exact hrun.2
  cases h with
  | fraction hwhole hfraction => exact ⟨hwhole.2, hfraction.2, by simp⟩
  | fractionExponent hwhole hfraction hexponent => exact ⟨hwhole.2, hfraction.2, hrun hexponent⟩
  | exponent hwhole hexponent => exact ⟨hwhole.2, by simp, hrun hexponent⟩

/-- The power of ten is read just when the exponent has a digit. -/
theorem power?_eq_some_iff {d : Spelling}
    (h : ∀ e ∈ d.exponent, ∀ c ∈ e.2, isDigitOf 10 c ∨ c = '_') {p : ℤ} :
    d.power? = some p ↔ (∀ e ∈ d.exponent, HasDigit 10 e.2) ∧ p = d.power := by
  obtain ⟨whole, fraction, exponent⟩ := d
  cases exponent with
  | none => simp [power?, power, eq_comm]
  | some exponent =>
    obtain ⟨negative, run⟩ := exponent
    have hempty := isEmpty_clean_iff (h _ rfl)
    have hpower : power ⟨whole, fraction, some (negative, run)⟩ =
        if negative then -(runValue 10 run : ℤ) else runValue 10 run := by
      cases negative <;> rfl
    simp only [power?, hpower, positional_clean (h _ rfl)]
    split
    next hnone => simp [hempty.1 hnone]
    next hsome =>
      rw [hempty, not_not] at hsome
      simp [hsome, eq_comm]

/-- The digits of the mantissa, and the power of ten that makes them the number. -/
theorem rational_eq {cs : List Char} {d : Spelling} (h : d.Written cs) :
    d.rational = positional 10 (clean d.whole ++ clean d.fraction) *
      10 ^ (d.power - (clean d.fraction).length : ℤ) := by
  obtain ⟨hwhole, hfraction, -⟩ := h.runs
  rw [positional_append, positional_clean hwhole, positional_clean hfraction,
    length_clean hfraction, rational, zpow_sub₀ (by norm_num), zpow_natCast]
  push_cast
  field_simp

/-- What is computed for the parts of a double is the double nearest to the number that they
denote. -/
theorem nearest_rational {cs : List Char} {d : Spelling} (h : d.Written cs) :
    Decimal.Nearest d.rational
      (Decimal.nearestDecimal (positional 10 (clean d.whole ++ clean d.fraction))
        (d.power - (clean d.fraction).length)) := by
  rw [rational_eq h]
  exact Decimal.nearest_nearestDecimal _ _

/-- The parts of a word are read as the double that is nearest to what they denote, if they have
the digits they need. -/
theorem value?_eq_some_iff {cs : List Char} {d : Spelling} (h : d.Written cs) {x : Float} :
    d.value? = some x ↔
      d.HasDigits ∧ ∃ bits, Decimal.Nearest d.rational bits ∧
      x = Float.ofBits (UInt64.ofNat bits) := by
  obtain ⟨hwhole, hfraction, hexponent⟩ := h.runs
  have hmantissa : (!(clean d.whole ++ clean d.fraction).isEmpty) = true ↔
      HasDigit 10 (d.whole ++ d.fraction) := by
    rw [clean, clean, ← List.filter_append, Bool.not_eq_true', ← Bool.not_eq_true]
    exact (isEmpty_clean_iff (List.forall_mem_append.2 ⟨hwhole, hfraction⟩)).not_left
  refine guard_bind_eq_some_iff.trans ?_
  rw [hmantissa, HasDigits, and_assoc]
  refine and_congr_right fun _ => ?_
  constructor
  · intro hread
    obtain ⟨p, hp, hx⟩ := Option.bind_eq_some_iff.1 hread
    obtain ⟨hdigit, rfl⟩ := (power?_eq_some_iff hexponent).1 hp
    refine ⟨hdigit, _, nearest_rational h, ?_⟩
    rw [← Decimal.ofMagnitude_false]
    exact (Option.some.inj hx).symm
  · rintro ⟨hdigit, bits, hbits, rfl⟩
    obtain rfl := hbits.unique (nearest_rational h)
    rw [← Decimal.ofMagnitude_false]
    exact Option.bind_eq_some_iff.2 ⟨d.power, (power?_eq_some_iff hexponent).2 ⟨hdigit, rfl⟩, rfl⟩

end Spelling

/-! ## What a word is read as -/

/-- After the digits that a double's word begins with comes a point or the letter of an exponent. -/
theorem Spelling.Written.head?_dropWhile {cs : List Char} {d : Spelling} (h : d.Written cs) :
    ∃ c ∈ ['.', 'e', 'E'], (cs.dropWhile (inRun 10)).head? = some c := by
  cases h with
  | @fraction whole fraction hwhole hfraction =>
    rw [(takeWhile_run ('.' :: fraction) hwhole (by simp; decide)).2]
    exact ⟨'.', by decide, rfl⟩
  | @fractionExponent whole fraction text exponent hwhole hfraction hexponent =>
    rw [(takeWhile_run ('.' :: (fraction ++ text)) hwhole (by simp; decide)).2]
    exact ⟨'.', by decide, rfl⟩
  | @exponent whole text exponent hwhole hexponent =>
    rw [(takeWhile_run text hwhole hexponent.not_inRun).2]
    obtain ⟨e, rest, rfl, rfl | rfl⟩ := hexponent.exists_cons
    · exact ⟨'e', by decide, rfl⟩
    · exact ⟨'E', by decide, rfl⟩

theorem IsRun.dropWhile {run : List Char} (h : IsRun 10 run) : run.dropWhile (inRun 10) = [] :=
  List.dropWhile_eq_nil_iff.2 fun c hc => inRun_iff.2 (h.2 c hc)

/-- After the zero of a marked word comes its mark, which is no digit. -/
theorem head?_dropWhile_of_marked? {cs run : List Char} {radix : ℕ}
    (h : marked? cs = some (radix, run)) :
    ∃ c ∈ radixMarks.map Prod.fst, (cs.dropWhile (inRun 10)).head? = some c := by
  obtain ⟨mark, hmark, rfl, -⟩ := marked?_eq_some_iff.1 h
  have hmem := List.mem_map_of_mem (f := Prod.fst) hmark
  have hall : (radixMarks.map Prod.fst).all (fun c => !inRun 10 c) = true := by decide
  have hnot : ¬inRun 10 mark := by simpa using List.all_eq_true.1 hall mark hmem
  have hzero : inRun 10 '0' := by decide
  rw [List.dropWhile_cons_of_pos hzero, List.dropWhile_cons_of_neg hnot]
  exact ⟨mark, hmem, rfl⟩

/-- A plain run is not written as a double. -/
theorem not_written_of_run {cs : List Char} (h : IsRun 10 cs) (d : Spelling) : ¬d.Written cs := by
  intro hwritten
  obtain ⟨c, -, hhead⟩ := hwritten.head?_dropWhile
  rw [h.dropWhile] at hhead
  cases hhead

/-- A word with a radix mark is not written as a double, though `e` may be one of its digits. -/
theorem not_written_of_marked? {cs run : List Char} {radix : ℕ} (h : marked? cs = some (radix, run))
    (d : Spelling) :
    ¬d.Written cs := by
  intro hwritten
  obtain ⟨c, hc, hhead⟩ := hwritten.head?_dropWhile
  obtain ⟨mark, hmark, hhead'⟩ := head?_dropWhile_of_marked? h
  obtain rfl : mark = c := Option.some.inj (hhead'.symm.trans hhead)
  have hapart : (radixMarks.map Prod.fst).all (fun c => !(['.', 'e', 'E'].elem c)) = true := by
    decide
  exact absurd hc (by simpa using List.all_eq_true.1 hapart mark hmark)

section

variable {word : String}

/-- A word with a radix mark is read as an integer or not at all. -/
theorem read?_marked {radix : ℕ} {run : List Char} (h : marked? word.toList = some (radix, run)) :
    read? word = int? radix run := by
  rw [read?, h]

/-- A word that is written as a double is read as one or not at all. -/
theorem read?_written {d : Spelling} (h : d.Written word.toList) :
    read? word = d.value?.map .float := by
  have hmarked : marked? word.toList = none := by
    rw [Option.eq_none_iff_forall_ne_some]
    exact fun _ hmarked => not_written_of_marked? hmarked d h
  rw [read?, hmarked, spelling?_eq_some_iff.2 h]

/-- A plain run is read as an integer or not at all. -/
theorem read?_run (h : IsRun 10 word.toList) : read? word = int? 10 word.toList := by
  have hmarked : marked? word.toList = none := by
    rw [Option.eq_none_iff_forall_ne_some]
    intro _ hmarked
    obtain ⟨mark, -, hhead⟩ := head?_dropWhile_of_marked? hmarked
    rw [h.dropWhile] at hhead
    cases hhead
  have hspelling : spelling? word.toList = none := by
    rw [Option.eq_none_iff_forall_ne_some]
    exact fun d hd => not_written_of_run h d (spelling?_eq_some_iff.1 hd)
  rw [read?, hmarked, hspelling]
  exact if_pos (isRun_iff.1 h)

/-- Nothing else is read. -/
theorem exists_form_of_read? {number : Number} (h : read? word = some number) :
    (∃ radix run, marked? word.toList = some (radix, run)) ∨
      (∃ d : Spelling, d.Written word.toList) ∨
      IsRun 10 word.toList := by
  rw [read?] at h
  split at h
  next radix run hmarked => exact Or.inl ⟨radix, run, hmarked⟩
  next =>
    split at h
    next d hspelling => exact Or.inr (Or.inl ⟨d, spelling?_eq_some_iff.1 hspelling⟩)
    next =>
      split at h
      next hrun => exact Or.inr (Or.inr (isRun_iff.2 hrun))
      next => cases h

/-- A word is read as an integer just when it denotes a natural number that fits. -/
theorem read?_eq_int_iff {v : Int64} :
    read? word = some (.int v) ↔ ∃ n : ℕ, IntWord word.toList n ∧ n < 2 ^ 63 ∧ v.toInt = n := by
  constructor
  · intro h
    obtain ⟨radix, run, hmarked⟩ | ⟨d, hwritten⟩ | hrun := exists_form_of_read? h
    · obtain ⟨mark, hmark, hword, hrun⟩ := marked?_eq_some_iff.1 hmarked
      obtain ⟨hdigit, hvalue⟩ := (int?_eq_int_iff hrun.2).1 (read?_marked hmarked ▸ h)
      rw [hword]
      exact ⟨_, .marked hmark hrun hdigit, hvalue⟩
    · rw [read?_written hwritten] at h
      simp at h
    · obtain ⟨hdigit, hvalue⟩ := (int?_eq_int_iff hrun.2).1 (read?_run hrun ▸ h)
      exact ⟨_, .decimal hrun hdigit, hvalue⟩
  · rintro ⟨n, hword, hvalue⟩
    generalize hcs : word.toList = cs at hword
    cases hword with
    | decimal hrun hdigit =>
      subst hcs
      rw [read?_run hrun]
      exact (int?_eq_int_iff hrun.2).2 ⟨hdigit, hvalue⟩
    | marked hmark hrun hdigit =>
      rw [read?_marked (marked?_eq_some_iff.2 ⟨_, hmark, hcs, hrun⟩)]
      exact (int?_eq_int_iff hrun.2).2 ⟨hdigit, hvalue⟩

/-- A word is read as a double just when it denotes a rational number, and as one nearest to it. -/
theorem read?_eq_float_iff {x : Float} : read? word = some (.float x) ↔
    ∃ q bits, FloatWord word.toList q ∧ Decimal.Nearest q bits ∧
    x = Float.ofBits (UInt64.ofNat bits) := by
  constructor
  · intro h
    obtain ⟨radix, run, hmarked⟩ | ⟨d, hwritten⟩ | hrun := exists_form_of_read? h
    · obtain ⟨mark, -, -, hrun⟩ := marked?_eq_some_iff.1 hmarked
      rw [read?_marked hmarked, int?_eq_some_iff hrun.2] at h
      cases h.2.2
    · rw [read?_written hwritten] at h
      obtain ⟨y, hy, hnumber⟩ := Option.map_eq_some_iff.1 h
      obtain rfl := Number.float.inj hnumber
      obtain ⟨hdigits, bits, hbits, hvalue⟩ := (Spelling.value?_eq_some_iff hwritten).1 hy
      exact ⟨d.rational, bits, ⟨d, hwritten, hdigits, rfl⟩, hbits, hvalue⟩
    · rw [read?_run hrun, int?_eq_some_iff hrun.2] at h
      cases h.2.2
  · rintro ⟨q, bits, ⟨d, hwritten, hdigits, rfl⟩, hbits, hvalue⟩
    rw [read?_written hwritten,
      (Spelling.value?_eq_some_iff hwritten).2 ⟨hdigits, bits, hbits, hvalue⟩]
    rfl

end

/-- Every rational number that a word denotes has a nearest double. -/
theorem FloatWord.exists_nearest {cs : List Char} {q : ℚ} (h : FloatWord cs q) :
    ∃ bits, Decimal.Nearest q bits := by
  obtain ⟨d, hwritten, -, rfl⟩ := h
  exact ⟨_, Spelling.nearest_rational hwritten⟩

/-- No word denotes both a natural number and the value of a double. -/
theorem IntWord.not_floatWord {cs : List Char} {n : ℕ} (h : IntWord cs n) (q : ℚ) :
    ¬FloatWord cs q := by
  rintro ⟨d, hwritten, -⟩
  cases h with
  | decimal hrun hdigit => exact not_written_of_run hrun d hwritten
  | marked hmark hrun hdigit =>
    exact not_written_of_marked? (marked?_eq_some_iff.2 ⟨_, hmark, rfl, hrun⟩) d hwritten

/-- A word is read as an integer if it is an integer word and the integer is less than `2^63`, as
the double nearest to its number if it is a double's word, and as nothing otherwise. -/
theorem read?_exact (word : String) :
    (∀ v : Int64, read? word = some (.int v) ↔
      ∃ n : ℕ, IntWord word.toList n ∧ n < 2 ^ 63 ∧ v.toInt = n) ∧
    (∀ x : Float, read? word = some (.float x) ↔
      ∃ q bits, FloatWord word.toList q ∧ Decimal.Nearest q bits ∧
      x = Float.ofBits (UInt64.ofNat bits)) ∧
    (read? word = none ↔
      (∀ n, IntWord word.toList n → 2 ^ 63 ≤ n) ∧ ∀ q, ¬FloatWord word.toList q) ∧
    ¬((∃ n, IntWord word.toList n) ∧ ∃ q, FloatWord word.toList q) := by
  refine ⟨fun _ => read?_eq_int_iff, fun _ => read?_eq_float_iff, ⟨fun h => ⟨?_, ?_⟩, ?_⟩, ?_⟩
  · intro n hword
    by_contra hlt
    rw [Nat.not_le] at hlt
    have hread := read?_eq_int_iff.2 ⟨n, hword, hlt, Int64.toInt_ofNat_of_lt hlt⟩
    rw [h] at hread
    cases hread
  · intro q hword
    obtain ⟨bits, hbits⟩ := hword.exists_nearest
    have hread := read?_eq_float_iff.2 ⟨q, bits, hword, hbits, rfl⟩
    rw [h] at hread
    cases hread
  · rintro ⟨hint, hfloat⟩
    rw [Option.eq_none_iff_forall_ne_some]
    intro number hread
    cases number with
    | int v =>
      obtain ⟨n, hword, hlt, -⟩ := read?_eq_int_iff.1 hread
      exact absurd hlt (Nat.not_lt.2 (hint n hword))
    | float x =>
      obtain ⟨q, -, hword, -⟩ := read?_eq_float_iff.1 hread
      exact hfloat q hword
  · rintro ⟨⟨n, hint⟩, q, hfloat⟩
    exact hint.not_floatWord q hfloat

end Rill.Number
