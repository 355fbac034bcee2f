import Rill.Proofs.Literals
import Rill.Proofs.NumberWords

/-!
# How far a number word goes

A text is cut into tokens without asking what a number denotes, so the word of a number need not be
one token. The cut goes on after a decimal point and after the sign of an exponent only if a digit
comes next (`Number.DigitsFollow`), where the word may have an underscore. Nothing else tells the
two apart : a number word that starts with a digit is a single token exactly if a digit follows its
point and the sign of its exponent.

The cut takes runs of digits whole (`Scan.numberLength_run`), and an exponent or a fraction if a
digit follows its mark (`Number.ExponentWritten.numberLength_iff`,
`Number.Spelling.Written.numberLength_iff`).
-/

namespace Rill

namespace Number

/-- An ASCII digit comes next. -/
def DigitNext (cs : List Char) : Prop :=
  ∃ d ∈ cs.head?, Text.isDigit d

/-- A digit follows the decimal point of a word and the sign of its exponent, where it has them. -/
structure DigitsFollow (word : List Char) : Prop where
  point : ∀ before after, word = before ++ '.' :: after → DigitNext after
  sign : ∀ before e s after, word = before ++ e :: s :: after → e = 'e' ∨ e = 'E' →
    s = '+' ∨ s = '-' →
    DigitNext after

theorem digitNext_iff {cs : List Char} : Scan.digitNext cs = true ↔ DigitNext cs := by
  cases cs <;> simp [Scan.digitNext, DigitNext]

/-! ## Marks and digits -/

section

variable {c : Char} {cs run rest : List Char}

theorem digitsFollow_cons_iff : DigitsFollow (c :: cs) ↔ (c = '.' → DigitNext cs) ∧
    (c = 'e' ∨ c = 'E' → ∀ s after, cs = s :: after → s = '+' ∨ s = '-' → DigitNext after) ∧
    DigitsFollow cs := by
  constructor
  · rintro ⟨hpoint, hsign⟩
    refine ⟨?_, ?_, fun before after h => hpoint (c :: before) after (by rw [h]; rfl),
      fun before e s after h => hsign (c :: before) e s after (by rw [h]; rfl)⟩
    · rintro rfl
      exact hpoint [] cs rfl
    · rintro he s after rfl
      exact hsign [] c s after rfl he
  · rintro ⟨hpoint, hsign, hrest⟩
    refine ⟨fun before after h => ?_, fun before e s after h => ?_⟩
    · obtain ⟨rfl, hc⟩ | ⟨before, rfl, hcs⟩ := List.cons_eq_append_iff.1 h
      · obtain ⟨rfl, rfl⟩ := List.cons.inj hc
        exact hpoint rfl
      · exact hrest.point before after hcs
    · obtain ⟨rfl, hc⟩ | ⟨before, rfl, hcs⟩ := List.cons_eq_append_iff.1 h
      · obtain ⟨rfl, rfl⟩ := List.cons.inj hc
        exact fun he => hsign he s after rfl
      · exact hrest.sign before e s after hcs

theorem digitsFollow_nil : DigitsFollow [] :=
  ⟨by simp, by simp⟩

/-- What holds neither a point nor the letter of an exponent does not matter. -/
theorem digitsFollow_append_iff (h : ∀ c ∈ run, c ≠ '.' ∧ c ≠ 'e' ∧ c ≠ 'E') :
    DigitsFollow (run ++ rest) ↔ DigitsFollow rest := by
  induction run with
  | nil => rfl
  | cons c run ih =>
    obtain ⟨hpoint, he, hE⟩ := h c List.mem_cons_self
    rw [List.cons_append, digitsFollow_cons_iff, ih fun d hd => h d (List.mem_cons_of_mem c hd)]
    simp [hpoint, he, hE]

/-- A word of letters, digits and underscores has neither a point nor a sign. -/
theorem digitsFollow_of_inWord (h : ∀ c ∈ cs, Scan.inWord c) : DigitsFollow cs := by
  refine ⟨fun before after heq => ?_, fun before e s after heq _ hs => ?_⟩
  · exact absurd (h '.' (by simp [heq])) (by decide)
  · obtain rfl | rfl := hs
    · exact absurd (h '+' (by simp [heq])) (by decide)
    · exact absurd (h '-' (by simp [heq])) (by decide)

end

/-! ## Digits in words -/

theorem inWord_of_isLatin {c : Char} (h : Text.isLatin c) : Scan.inWord c := by
  have hascii : c.toNat < 0x80 := by
    simp only [Text.isLatin, Bool.or_eq_true, Bool.and_eq_true, decide_eq_true_eq, Char.le_def,
      UInt32.le_iff_toNat_le] at h
    have hlower : ('z' : Char).val.toNat = 122 := rfl
    have hupper : ('Z' : Char).val.toNat = 90 := rfl
    change c.val.toNat < 128
    omega
  simp [Scan.inWord, Text.isAlphanumeric, Text.isAlphabetic, hascii, h]

theorem inWord_of_digitValue? {c : Char} {d : ℕ} (h : digitValue? c = some d) : Scan.inWord c := by
  have hf : 'f' ≤ 'z' := by decide
  have hF : 'F' ≤ 'Z' := by decide
  unfold digitValue? at h
  split at h
  next hdigit => exact Scan.inWord_of_isDigit (by simpa [Text.isDigit] using hdigit)
  next =>
    split at h
    next hlower =>
      exact inWord_of_isLatin (by simp [Text.isLatin, hlower.1, Char.le_trans hlower.2 hf])
    next =>
      split at h
      next hupper =>
        exact inWord_of_isLatin (by simp [Text.isLatin, hupper.1, Char.le_trans hupper.2 hF])
      next => cases h

theorem inWord_of_run {radix : ℕ} {c : Char} (h : isDigitOf radix c ∨ c = '_') : Scan.inWord c := by
  obtain hdigit | rfl := h
  · obtain ⟨d, -, hvalue⟩ := isDigitOf_iff.1 hdigit
    exact inWord_of_digitValue? hvalue
  · decide

/-- A decimal run holds no letter and no point. -/
theorem ne_of_decimal {c : Char} (h : isDigitOf 10 c ∨ c = '_') :
    c ∉ '.' :: 'e' :: 'E' :: "xXoObB".toList := by
  have hnone : ('.' :: 'e' :: 'E' :: "xXoObB".toList).all (fun m => !inRun 10 m) = true := by decide
  intro hmem
  have hnot := List.all_eq_true.1 hnone c hmem
  rw [inRun_iff.2 h] at hnot
  cases hnot

end Number

namespace Scan

open Number

variable {run rest : List Char}

/-- The cut takes digits and underscores whole. Unless there was a mark of a radix, the letters `e`
and `E` start an exponent. -/
theorem numberLength_run (plain whole : Bool)
    (h : ∀ c ∈ run, inWord c ∧ (plain = true → c ≠ 'e' ∧ c ≠ 'E')) :
    numberLength plain whole (run ++ rest) = run.length + numberLength plain whole rest := by
  induction run with
  | nil => simp
  | cons c run ih =>
    obtain ⟨hword, hletter⟩ := h c List.mem_cons_self
    have hplain : (plain && (c == 'e' || c == 'E')) = false := by
      cases plain with
      | false => rfl
      | true => simpa using hletter rfl
    rw [List.cons_append, numberLength.eq_def]
    simp only [hword, hplain, if_true, Bool.false_eq_true, if_false]
    rw [ih fun d hd => h d (List.mem_cons_of_mem c hd), List.length_cons]
    omega

theorem numberLength_decimal (whole : Bool) (h : ∀ c ∈ run, isDigitOf 10 c ∨ c = '_') :
    numberLength true whole (run ++ rest) = run.length + numberLength true whole rest := by
  refine numberLength_run true whole fun c hc => ⟨inWord_of_run (h c hc), fun _ => ?_⟩
  have hne := ne_of_decimal (h c hc)
  simp only [List.mem_cons, not_or] at hne
  exact ⟨hne.2.1, hne.2.2.1⟩

theorem numberLength_decimal_self (whole : Bool) (h : ∀ c ∈ run, isDigitOf 10 c ∨ c = '_') :
    numberLength true whole run = run.length := by
  have hall : numberLength true whole (run ++ []) = run.length + numberLength true whole [] :=
    numberLength_decimal whole h
  simpa [numberLength] using hall

/-- A decimal point is taken with what follows it if that starts with a digit. -/
theorem numberLength_point :
    numberLength true true ('.' :: rest) =
      if digitNext rest then 1 + numberLength true false rest else 0 := by
  have hword : inWord '.' = false := by decide
  rw [numberLength.eq_def]
  simp [hword]

variable {e s : Char}

/-- The sign of an exponent is taken with what follows it if that starts with a digit. -/
theorem numberLength_sign (whole : Bool) (he : e = 'e' ∨ e = 'E') (hs : s = '+' ∨ s = '-') :
    numberLength true whole (e :: s :: rest) =
      if digitNext rest then 2 + numberLength true false rest else 1 := by
  have hword : inWord e := by obtain rfl | rfl := he <;> decide
  have hletter : (e == 'e' || e == 'E') = true := by simpa using he
  have hsign : (s == '+' || s == '-') = true := by simpa using hs
  have hstop : numberLength true false (s :: rest) = 0 := by
    have hword : inWord s = false := by obtain rfl | rfl := hs <;> decide
    rw [numberLength.eq_def]
    simp [hword]
  rw [numberLength.eq_def]
  simp [hword, hletter, hsign, hstop]

theorem numberLength_letter (whole : Bool) (he : e = 'e' ∨ e = 'E') (hs : s ≠ '+' ∧ s ≠ '-') :
    numberLength true whole (e :: s :: rest) = 1 + numberLength true false (s :: rest) := by
  have hword : inWord e := by obtain rfl | rfl := he <;> decide
  have hletter : (e == 'e' || e == 'E') = true := by simpa using he
  rw [numberLength.eq_def]
  simp [hword, hletter, hs]

end Scan

namespace Number

open Scan

/-! ## Exponents and fractions -/

theorem digitsFollow_of_decimal {run : List Char} (h : ∀ c ∈ run, isDigitOf 10 c ∨ c = '_') :
    DigitsFollow run :=
  digitsFollow_of_inWord fun c hc => inWord_of_run (h c hc)

theorem digitsFollow_append_decimal {run rest : List Char}
    (h : ∀ c ∈ run, isDigitOf 10 c ∨ c = '_') :
    DigitsFollow (run ++ rest) ↔ DigitsFollow rest := by
  refine digitsFollow_append_iff fun c hc => ?_
  have hne := ne_of_decimal (h c hc)
  simp only [List.mem_cons, not_or] at hne
  exact ⟨hne.1, hne.2.1, hne.2.2.1⟩

/-- A signed exponent has digits where they are needed if one follows its sign. -/
theorem digitsFollow_sign_iff {e s : Char} {run : List Char} (he : e = 'e' ∨ e = 'E')
    (hs : s = '+' ∨ s = '-') (hrun : ∀ c ∈ run, isDigitOf 10 c ∨ c = '_') :
    DigitsFollow (e :: s :: run) ↔ DigitNext run := by
  have hpoint : e ≠ '.' ∧ s ≠ '.' := by
    constructor
    · rintro rfl
      simp at he
    · rintro rfl
      simp at hs
  have hletter : ¬ (s = 'e' ∨ s = 'E') := by
    obtain rfl | rfl := hs <;> decide
  rw [digitsFollow_cons_iff, digitsFollow_cons_iff]
  simp [hpoint, hletter, he, hs, digitsFollow_of_decimal hrun]

/-- The cut takes the whole of an exponent if a digit follows its sign. -/
theorem ExponentWritten.numberLength_iff {exponent : Bool × List Char} {text : List Char}
    (h : ExponentWritten exponent text) (whole : Bool) :
    numberLength true whole text = text.length ↔ DigitsFollow text := by
  -- a sign without a digit after it stays behind, and so does the run
  have hsigned : ∀ {e s : Char} {run : List Char}, e = 'e' ∨ e = 'E' → s = '+' ∨ s = '-' →
      IsRun 10 run →
      (numberLength true whole (e :: s :: run) = (e :: s :: run).length ↔
          DigitsFollow (e :: s :: run)) := by
    intro e s run he hs hrun
    rw [digitsFollow_sign_iff he hs hrun.2, ← digitNext_iff, numberLength_sign whole he hs,
      numberLength_decimal_self false hrun.2]
    split
    next hdigit =>
      simp only [hdigit, iff_true, List.length_cons]
      omega
    next hdigit => simp [hdigit]
  cases h with
  | @unsigned e run he hrun =>
    obtain ⟨c, run, rfl⟩ := List.exists_cons_of_ne_nil hrun.1
    have hc : c ≠ '+' ∧ c ≠ '-' := by
      have hword := inWord_of_run (hrun.2 c List.mem_cons_self)
      constructor <;> rintro rfl <;> exact absurd hword (by decide)
    have hfollow : DigitsFollow (e :: c :: run) := by
      refine digitsFollow_of_inWord fun d hd => ?_
      rcases List.mem_cons.1 hd with rfl | hd
      · obtain rfl | rfl := he <;> decide
      · exact inWord_of_run (hrun.2 d hd)
    rw [numberLength_letter whole he hc, numberLength_decimal_self false hrun.2,
      iff_true_right hfollow]
    simp only [List.length_cons]
    omega
  | plus he hrun => exact hsigned he (.inl rfl) hrun
  | minus he hrun => exact hsigned he (.inr rfl) hrun

/-- The cut takes the whole of a fraction, and of what comes after it, if a digit
follows the point. -/
theorem numberLength_fraction_iff {fraction text : List Char} (hfraction : IsRun 10 fraction)
    (htext : numberLength true false text = text.length ↔ DigitsFollow text) :
    numberLength true true ('.' :: (fraction ++ text)) = ('.' :: (fraction ++ text)).length ↔
      DigitsFollow ('.' :: (fraction ++ text)) := by
  have hfollow : DigitsFollow ('.' :: (fraction ++ text)) ↔
      DigitNext (fraction ++ text) ∧ DigitsFollow text := by
    rw [digitsFollow_cons_iff, digitsFollow_append_decimal hfraction.2]
    simp
  rw [hfollow, ← htext, ← digitNext_iff, numberLength_point, numberLength_decimal false hfraction.2]
  split
  next hdigit =>
    simp only [hdigit, true_and, List.length_cons, List.length_append]
    omega
  next hdigit => simp [hdigit]

/-- The cut takes the digits that a word begins with, so what comes after them decides. -/
theorem numberLength_iff_of_tail {c : Char} {run tail : List Char} (hrun : IsRun 10 (c :: run))
    (htail : numberLength true true tail = tail.length ↔ DigitsFollow tail) :
    numberLength true true (run ++ tail) = (run ++ tail).length ↔
    DigitsFollow (c :: (run ++ tail)) := by
  have hrest : ∀ d ∈ run, isDigitOf 10 d ∨ d = '_' :=
    fun d hd => hrun.2 d (List.mem_cons_of_mem c hd)
  rw [← List.cons_append, digitsFollow_append_decimal hrun.2, ← htail,
    numberLength_decimal true hrest, List.length_append]
  omega

/-- The cut takes the whole word of a double if a digit follows its point and the sign of its
exponent. -/
theorem Spelling.Written.numberLength_iff {d : Spelling} {c : Char} {cs : List Char}
    (h : d.Written (c :: cs)) :
    numberLength true true cs = cs.length ↔ DigitsFollow (c :: cs) := by
  have hnone : numberLength true false [] = ([] : List Char).length ↔ DigitsFollow [] := by
    simp [numberLength, digitsFollow_nil]
  generalize hword : c :: cs = word at h
  cases h with
  | @fraction whole fraction hwhole hfraction =>
    obtain ⟨c', run, rfl⟩ := List.exists_cons_of_ne_nil hwhole.1
    obtain ⟨rfl, rfl⟩ := List.cons.inj hword
    have htail := numberLength_fraction_iff hfraction hnone
    rw [List.append_nil] at htail
    exact numberLength_iff_of_tail hwhole htail
  | @fractionExponent whole fraction text exponent hwhole hfraction hexponent =>
    obtain ⟨c', run, rfl⟩ := List.exists_cons_of_ne_nil hwhole.1
    obtain ⟨rfl, rfl⟩ := List.cons.inj hword
    exact numberLength_iff_of_tail hwhole
      (numberLength_fraction_iff hfraction (hexponent.numberLength_iff false))
  | @exponent whole text exponent hwhole hexponent =>
    obtain ⟨c', run, rfl⟩ := List.exists_cons_of_ne_nil hwhole.1
    obtain ⟨rfl, rfl⟩ := List.cons.inj hword
    exact numberLength_iff_of_tail hwhole (hexponent.numberLength_iff true)

/-! ## Number words -/

/-- After the zero of a word with the mark of a radix comes the mark, which is no digit. -/
theorem head?_dropWhile_of_hasRadix {cs : List Char} (h : hasRadix cs = true) :
    ∃ m ∈ "xXoObB".toList, (cs.dropWhile (inRun 10)).head? = some m := by
  unfold hasRadix at h
  split at h
  next m rest =>
    have hmem : m ∈ "xXoObB".toList := by simpa using h
    have hall : "xXoObB".toList.all (fun c => !inRun 10 c) = true := by decide
    have hnot : ¬inRun 10 m := by simpa using List.all_eq_true.1 hall m hmem
    have hzero : inRun 10 '0' := by decide
    rw [List.dropWhile_cons_of_pos hzero, List.dropWhile_cons_of_neg hnot]
    exact ⟨m, hmem, rfl⟩
  next => cases h

theorem hasRadix_of_written {d : Spelling} {cs : List Char} (h : d.Written cs) :
    hasRadix cs = false := by
  rw [Bool.eq_false_iff]
  intro hradix
  obtain ⟨c, hc, hhead⟩ := h.head?_dropWhile
  obtain ⟨m, hm, hhead'⟩ := head?_dropWhile_of_hasRadix hradix
  obtain rfl : m = c := Option.some.inj (hhead'.symm.trans hhead)
  have hapart : "xXoObB".toList.all (fun c => !(['.', 'e', 'E'].elem c)) = true := by decide
  exact absurd hc (by simpa using List.all_eq_true.1 hapart m hm)

theorem hasRadix_of_run {cs : List Char} (h : IsRun 10 cs) : hasRadix cs = false := by
  rw [Bool.eq_false_iff]
  intro hradix
  obtain ⟨m, -, hhead⟩ := head?_dropWhile_of_hasRadix hradix
  rw [h.dropWhile] at hhead
  cases hhead

/-- The cut takes the whole of a number word if a digit follows its point and the sign of its
exponent. -/
theorem numberLength_iff_of_read? {word : String} {number : Number} (h : read? word = some number)
    {c : Char} {cs : List Char} (hword : word.toList = c :: cs) :
    numberLength (!hasRadix (c :: cs)) (!hasRadix (c :: cs)) cs = cs.length ↔
    DigitsFollow (c :: cs) := by
  have hform := exists_form_of_read? h
  rw [hword] at hform
  obtain ⟨radix, run, hmarked⟩ | ⟨d, hwritten⟩ | hrun := hform
  · obtain ⟨mark, hmark, hcs, hrun⟩ := marked?_eq_some_iff.1 hmarked
    obtain ⟨rfl, rfl⟩ := List.cons.inj hcs
    have hletters : radixMarks.all (fun m => "xXoObB".toList.contains m.1 && inWord m.1) =
        true := by decide
    have hletter := List.all_eq_true.1 hletters _ hmark
    rw [Bool.and_eq_true] at hletter
    have hradix : hasRadix ('0' :: mark :: run) = true := hletter.1
    have hinside : ∀ c ∈ mark :: run, inWord c :=
      List.forall_mem_cons.2 ⟨hletter.2, fun c hc => inWord_of_run (hrun.2 c hc)⟩
    have hall : numberLength false false (mark :: run ++ []) =
        (mark :: run).length + numberLength false false [] :=
      numberLength_run false false fun c hc => ⟨hinside c hc, by simp⟩
    rw [List.append_nil] at hall
    have hfollow : DigitsFollow ('0' :: mark :: run) :=
      digitsFollow_of_inWord (List.forall_mem_cons.2 ⟨by decide, hinside⟩)
    simp [hradix, hall, hfollow, numberLength]
  · rw [hasRadix_of_written hwritten]
    exact hwritten.numberLength_iff
  · have hnone : numberLength true true [] = ([] : List Char).length ↔ DigitsFollow [] := by
      simp [numberLength, digitsFollow_nil]
    have hall := numberLength_iff_of_tail hrun hnone
    rw [hasRadix_of_run hrun]
    rwa [List.append_nil] at hall

end Number

/-! ## Texts -/

theorem Scan.startsWord_of_isDigit {c : Char} (h : Text.isDigit c) : startsWord c = false := by
  simp only [Text.isDigit, Bool.and_eq_true, decide_eq_true_eq, Char.le_def,
    UInt32.le_iff_toNat_le] at h
  have hnine : ('9' : Char).val.toNat = 57 := rfl
  have hunderscore : ('_' : Char).val.toNat = 95 := rfl
  have hne : c ≠ '_' := by
    rintro rfl
    omega
  have hascii : c.toNat < 0x80 := by
    change c.val.toNat < 128
    omega
  have hletter : Text.isLatin c = false := by
    have hlower : ('a' : Char).val.toNat = 97 := rfl
    have hupper : ('A' : Char).val.toNat = 65 := rfl
    rw [Bool.eq_false_iff]
    simp only [Text.isLatin, ne_eq, Bool.or_eq_true, Bool.and_eq_true, decide_eq_true_eq,
      Char.le_def, UInt32.le_iff_toNat_le]
    omega
  simp [startsWord, Text.isAlphabetic, hne, hascii, hletter]

/-- What starts with a digit is read as a number, as far as the cut goes. -/
theorem scan_of_isDigit {c : Char} (h : Text.isDigit c) (cs : List Char) :
    scan (c :: cs) = some (Scan.taken .number (c :: cs)
      (1 + Scan.numberLength (!Scan.hasRadix (c :: cs)) (!Scan.hasRadix (c :: cs)) cs)) :=
  scan_cons_iff.2 (.number (Scan.startsWord_of_isDigit h) h)

namespace Buffer

variable {b : Buffer} {c : Char} {cs : List Char}

/-- A text that starts with a digit is cut into the number literal of all of it if the cut
takes all of it. -/
theorem scan_eq_number_iff (hchars : b.chars = c :: cs) (hdigit : Text.isDigit c) :
    scan b.chars = some (.lexeme (.number b.text) b.chars.length) ↔
      Scan.numberLength (!Scan.hasRadix (c :: cs)) (!Scan.hasRadix (c :: cs)) cs = cs.length := by
  rw [hchars, scan_of_isDigit hdigit, Scan.taken, Option.some.injEq, Scan.lexeme.injEq,
    List.length_cons]
  constructor
  · rintro ⟨-, hlength⟩
    omega
  · intro hlength
    have hall : 1 + Scan.numberLength (!Scan.hasRadix (c :: cs)) (!Scan.hasRadix (c :: cs)) cs =
        (c :: cs).length := by
      rw [hlength, List.length_cons, Nat.add_comm]
    rw [hall, List.take_length, ← hchars, chars, String.ofList_toList, ← chars, hchars,
      List.length_cons]
    exact ⟨rfl, rfl⟩

/-- The first token of a text that starts with a digit carries meaning, so the only token
that does is the first. -/
theorem tokens_eq_number_iff (hchars : b.chars = c :: cs) (hdigit : Text.isDigit c) :
    (∃ range, b.tokens = .ok [⟨.number b.text, range⟩]) ↔
      scan b.chars = some (.lexeme (.number b.text) b.chars.length) := by
  constructor
  · rintro ⟨range, h⟩
    obtain ⟨all, c', hwalk, hend, hfilter⟩ := exists_walk_of_tokens h
    cases hwalk with
    | done =>
      rw [Cursor.start, hchars] at hend
      cases hend
    | @step _ _ l n _ hscan more =>
      have hnumber : l = .number (String.ofList (b.chars.take n)) := by
        have hfirst := hscan
        rw [Cursor.start, hchars, scan_of_isDigit hdigit, Scan.taken, Option.some.injEq,
          Scan.lexeme.injEq] at hfirst
        rw [← hfirst.1, hfirst.2, hchars]
      subst hnumber
      rw [List.filter_cons_of_pos (by rfl)] at hfilter
      have htext := Lexeme.number.inj (Token.mk.inj (List.cons.inj hfilter).1).1
      have hall : b.chars.take n = b.chars := by
        rw [← String.toList_ofList (l := b.chars.take n), htext, chars]
      have hn : n = b.chars.length :=
        Nat.le_antisymm (extent_of_scan hscan).2 (List.take_eq_self_iff _ |>.1 hall)
      rwa [htext, hn] at hscan
  · intro h
    have hwalk := Walk.step (c := Cursor.start b) h (.done _)
    have hend : ((Cursor.start b).advance b.chars.length).rest = [] := by
      rw [Cursor.rest_advance]
      exact List.drop_length
    exact ⟨_, tokens_of_walk hwalk hend⟩

/-- A number word that starts with a digit is cut into a single token, the number literal of that
word, if and only if a digit follows its decimal point and the sign of its exponent, where it has
them. It makes no difference whether the tokens without meaning are counted. -/
theorem number_extent {b : Buffer} (hdigit : Number.DigitNext b.chars)
    (hread : (Number.read? b.text).isSome) :
    ((∃ range, b.tokens = .ok [⟨.number b.text, range⟩]) ↔ Number.DigitsFollow b.chars) ∧
    ((∃ range, b.allTokens = .ok [⟨.number b.text, range⟩]) ↔ Number.DigitsFollow b.chars) := by
  obtain ⟨c, hhead, hc⟩ := hdigit
  obtain ⟨cs, hchars⟩ := List.head?_eq_some_iff.1 hhead
  obtain ⟨number, hnumber⟩ := Option.isSome_iff_exists.1 hread
  have hextent := Number.numberLength_iff_of_read? hnumber hchars
  rw [tokens_eq_number_iff hchars hc, allTokens_eq_singleton_iff, scan_eq_number_iff hchars hc,
    hextent, hchars]
  exact ⟨Iff.rfl, Iff.rfl⟩

/-- An underscore may follow the sign of an exponent, but such a word is not one token; one with
underscores elsewhere is. -/
theorem number_extent_underscores :
    ((Number.read? "1.5e+_2").isSome ∧
      ¬ ∃ range, (anonymous "1.5e+_2").tokens = .ok [⟨.number "1.5e+_2", range⟩]) ∧
      (Number.read? "1_.5_e+2_").isSome ∧
        ∃ range, (anonymous "1_.5_e+2_").tokens = .ok [⟨.number "1_.5_e+2_", range⟩] := by
  have hdigit : ∀ cs, Number.DigitNext ('1' :: cs) := fun _ => ⟨'1', rfl, by decide⟩
  have hread : (Number.read? "1.5e+_2").isSome ∧ (Number.read? "1_.5_e+2_").isSome := by
    decide +kernel
  refine ⟨⟨hread.1, fun htoken => ?_⟩, hread.2, ?_⟩
  · have hfollow := (number_extent (b := anonymous "1.5e+_2") (hdigit _) hread.1).1.1 htoken
    obtain ⟨d, hd, hdigit⟩ :=
      hfollow.sign ['1', '.', '5'] 'e' '+' ['_', '2'] rfl (.inl rfl) (.inl rfl)
    obtain rfl := Option.some.inj hd
    exact absurd hdigit (by decide)
  · refine (number_extent (b := anonymous "1_.5_e+2_") (hdigit _) hread.2).1.2 ?_
    have hchars : (anonymous "1_.5_e+2_").chars = ['1', '_', '.', '5', '_', 'e', '+', '2', '_'] :=
      rfl
    have hfive : Text.isDigit '5' := by decide
    have htwo : Text.isDigit '2' := by decide
    simp [hchars, Number.digitsFollow_cons_iff, Number.digitsFollow_nil, Number.DigitNext,
      hfive, htwo]

end Buffer

end Rill
