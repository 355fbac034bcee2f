import Rill.Proofs.Joined
import Rill.Proofs.Pieces

/-!
# Tokens set apart by spaces

How tokens are spaced does not matter to what they are. The tokens of a text that carry meaning,
each as it is written there, with a single space between each and the next, make a text that is cut
into the same lexemes again (`Buffer.respaced`).

Each token is a lexeme of its own when its text is taken alone (`Cursor.At.written`). A space ends
it (`scan_append_separator`), and the space is a blank of its own because no lexeme that carries
meaning starts with a blank (`Scan.isInlineBlank_eq_false_of_scan`) : no letter of any script is one
(`Text.isBlank_eq_false_of_isAlphabetic`).
-/

namespace Rill

/-! ## Letters are no blanks -/

namespace Text

theorem exists_of_inRanges {ranges : List (Nat × Nat)} {n : Nat} (h : inRanges ranges n) :
    ∃ r ∈ ranges, r.1 ≤ n ∧ n ≤ r.2 := by
  fun_induction inRanges ranges n with
  | case1 => cases h
  | case2 => cases h
  | case3 lo hi rest n hlo ih =>
    rw [Bool.or_eq_true, decide_eq_true_eq] at h
    obtain hhi | hrest := h
    · exact ⟨(lo, hi), List.mem_cons_self, Nat.le_of_not_lt hlo, hhi⟩
    · obtain ⟨r, hr, hn⟩ := ih hrest
      exact ⟨r, List.mem_cons_of_mem _ hr, hn⟩

/-- No interval of one table meets one of the other. -/
def apart (ranges ranges' : List (Nat × Nat)) : Bool :=
  ranges.all fun r => ranges'.all fun r' => decide (r.2 < r'.1) || decide (r'.2 < r.1)

theorem inRanges_of_apart {ranges ranges' : List (Nat × Nat)} (h : apart ranges ranges') {n : Nat}
    (hn : inRanges ranges n) : inRanges ranges' n = false := by
  rw [Bool.eq_false_iff]
  intro hn'
  obtain ⟨r, hr, hlo, hhi⟩ := exists_of_inRanges hn
  obtain ⟨r', hr', hlo', hhi'⟩ := exists_of_inRanges hn'
  have hapart := List.all_eq_true.1 (List.all_eq_true.1 h r hr) r' hr'
  simp only [Bool.or_eq_true, decide_eq_true_eq] at hapart
  omega

theorem isBlank_eq_false_of_isAlphabetic {c : Char} (h : isAlphabetic c) : isBlank c = false := by
  have hapart : apart alphabeticRanges blankRanges := by decide +kernel
  unfold isAlphabetic at h
  unfold isBlank
  split at h
  next hascii =>
    have hletter : 65 ≤ c.toNat := by
      simp only [isLatin, Bool.or_eq_true, Bool.and_eq_true, decide_eq_true_eq, Char.le_def,
        UInt32.le_iff_toNat_le] at h
      have hlower : ('a' : Char).val.toNat = 97 := rfl
      have hupper : ('A' : Char).val.toNat = 65 := rfl
      change 65 ≤ c.val.toNat
      omega
    rw [if_pos hascii, Bool.or_eq_false_iff, Bool.and_eq_false_iff, beq_eq_false_iff_ne,
      decide_eq_false_iff_not, decide_eq_false_iff_not]
    omega
  next hwide =>
    rw [if_neg hwide]
    exact inRanges_of_apart hapart h

theorem isBlank_eq_false_of_isDigit {c : Char} (h : isDigit c) : isBlank c = false := by
  simp only [isDigit, Bool.and_eq_true, decide_eq_true_eq, Char.le_def, UInt32.le_iff_toNat_le] at h
  have hzero : ('0' : Char).val.toNat = 48 := rfl
  have hnine : ('9' : Char).val.toNat = 57 := rfl
  have hvalue : c.toNat = c.val.toNat := rfl
  rw [isBlank, if_pos (by omega), Bool.or_eq_false_iff, Bool.and_eq_false_iff, beq_eq_false_iff_ne,
    decide_eq_false_iff_not, decide_eq_false_iff_not]
  omega

end Text

namespace Scan

theorem isInlineBlank_of_isBlank {c : Char} (h : Text.isBlank c = false) :
    isInlineBlank c = false := by
  rw [isInlineBlank, h, Bool.false_and]

/-- Only a blank starts with one. -/
theorem isInlineBlank_eq_false_of_scan {c : Char} {cs : List Char} {l : Lexeme} {n : Nat}
    (h : scan (c :: cs) = some (.lexeme l n)) (hl : l.kind ≠ .blank) : isInlineBlank c = false := by
  have hcase := scan_cons_iff.1 h
  generalize hr : Scan.lexeme l n = r at hcase
  cases hcase with
  | word hw =>
    rw [startsWord, Bool.or_eq_true, beq_iff_eq] at hw
    obtain rfl | hletter := hw
    · rfl
    · exact isInlineBlank_of_isBlank (Text.isBlank_eq_false_of_isAlphabetic hletter)
  | number _ hd => exact isInlineBlank_of_isBlank (Text.isBlank_eq_false_of_isDigit hd)
  | blank _ _ _ _ =>
    obtain ⟨rfl, -⟩ := Scan.lexeme.inj hr
    exact absurd rfl hl
  | string hc | char hc | lineFeed hc | carriageReturn hc | lineComment hc _
  | blockComment hc _ _ =>
    rw [hc]
    rfl
  | operator hmark _ _ => exact isInlineBlank_of_isBlank hmark.blank
  | openComment _ _ _ | unrecognized _ _ => cases hr

end Scan

open Scan in
/-- A space before a character that is no blank is a blank of its own. -/
theorem scan_space {c : Char} (h : isInlineBlank c = false) (cs : List Char) :
    scan (' ' :: c :: cs) = some (.lexeme (.blank " ") 1) := by
  have hblank := @ScanCase.blank ' ' (c :: cs) rfl rfl rfl rfl
  rw [List.takeWhile_cons_of_neg (by simp [h])] at hblank
  exact scan_cons_iff.2 hblank

/-! ## Tokens by themselves -/

namespace Cursor.At

variable {b : Buffer} {before : List Char} {c c' : Cursor} {ts : List Token}

/-- The text of each token of a walk is a lexeme by itself. -/
theorem written (h : c.At b before) (hwalk : Walk c ts c') :
    ∀ t ∈ ts, ∃ w, b.slice? t.range = some (String.ofList w) ∧
    scan w = some (.lexeme t.lexeme w.length) := by
  intro t ht
  obtain ⟨before', d, n, hd, hscan, hrange⟩ := h.exists_scan hwalk t ht
  have hlength : (d.rest.take n).length = n := List.length_take_of_le (extent_of_scan hscan).2
  refine ⟨d.rest.take n, by rw [hrange, hd.slice?], ?_⟩
  rw [← List.take_append_drop n d.rest] at hscan
  rw [hlength]
  exact scan_of_append hscan (Nat.le_of_eq hlength.symm)

end Cursor.At

/-! ## Spaces in between -/

namespace WrittenLexeme

/-- Words with a space between each and the next. -/
def spaced (ws : List WrittenLexeme) : List Char :=
  [' '].intercalate (ws.map text)

theorem spaced_cons_cons (w w' : WrittenLexeme) (ws : List WrittenLexeme) :
    spaced (w :: w' :: ws) = w.text ++ ' ' :: spaced (w' :: ws) := by
  simp [spaced, List.intercalate_cons_cons]

theorem exists_spaced_cons (w : WrittenLexeme) (ws : List WrittenLexeme) :
    ∃ c cs, spaced (w :: ws) = c :: cs ∧ Scan.isInlineBlank c = false := by
  have hpos := (extent_of_scan w.scans).1
  cases htext : w.text with
  | nil => simp [Scan.extent, htext] at hpos
  | cons c cs =>
    have hc : Scan.isInlineBlank c = false := by
      refine Scan.isInlineBlank_eq_false_of_scan (htext ▸ w.scans) fun hkind => ?_
      have hcarries := w.carries
      rw [hkind] at hcarries
      cases hcarries
    cases ws with
    | nil => exact ⟨c, cs, by simp [spaced, htext], hc⟩
    | cons w' ws => exact ⟨c, _, by rw [spaced_cons_cons, htext, List.cons_append], hc⟩

end WrittenLexeme

/-- A walk over words with spaces in between gives their lexemes, and blanks. -/
theorem Walk.exists_of_spaced :
    ∀ (ws : List WrittenLexeme) {d : Cursor}, d.rest = WrittenLexeme.spaced ws →
    ∃ us d', Walk d us d' ∧ d'.rest = [] ∧
    meaningful (us.map Token.lexeme) = ws.map WrittenLexeme.lexeme
  | [], d, hd => ⟨[], d, .done d, hd, rfl⟩
  | [w], d, hd => by
    have hrest : d.rest = w.text := by simpa [WrittenLexeme.spaced] using hd
    have hscan : scan d.rest = some (.lexeme w.lexeme w.text.length) := by rw [hrest, w.scans]
    refine ⟨_, _, .step hscan (.done _), ?_, by simp [meaningful, w.carries]⟩
    rw [Cursor.rest_advance, hrest, List.drop_length]
  | w :: w' :: ws, d, hd => by
    rw [WrittenLexeme.spaced_cons_cons] at hd
    obtain ⟨c, cs, hcons, hc⟩ := WrittenLexeme.exists_spaced_cons w' ws
    have hscan : scan d.rest = some (.lexeme w.lexeme w.text.length) := by
      rw [hd]
      exact scan_append_separator w.scans w.carries (.inl rfl) _
    have hrest₁ : (d.advance w.text.length).rest = ' ' :: WrittenLexeme.spaced (w' :: ws) := by
      rw [Cursor.rest_advance, hd, List.drop_left]
    have hscan₁ : scan (d.advance w.text.length).rest = some (.lexeme (.blank " ") 1) := by
      rw [hrest₁, hcons]
      exact scan_space hc cs
    have hrest₂ : ((d.advance w.text.length).advance 1).rest = WrittenLexeme.spaced (w' :: ws) := by
      rw [Cursor.rest_advance, hrest₁]
      rfl
    obtain ⟨us, d', hwalk, hend, hlexemes⟩ := Walk.exists_of_spaced (w' :: ws) hrest₂
    have hblank : (Lexeme.blank " ").kind.isTrivia = true := rfl
    refine ⟨_, d', .step hscan (.step hscan₁ hwalk), hend, ?_⟩
    simp only [meaningful, List.map_cons, List.filter_cons] at hlexemes ⊢
    simp [hlexemes, w.carries, hblank]

namespace Buffer

variable {b : Buffer} {ts : List Token}

/-- The text that some tokens of a buffer make with a space between each and the next. -/
def respace? (b : Buffer) (ts : List Token) : Option String :=
  (ts.mapM fun t => b.slice? t.range).map (" ".intercalate ·)

/-- The tokens of a buffer that carry meaning are words that stand in it. -/
theorem exists_writtenLexemes (h : b.tokens = .ok ts) : ∃ ws : List WrittenLexeme,
    ws.map WrittenLexeme.lexeme = ts.map Token.lexeme ∧
      ts.mapM (fun t => b.slice? t.range) = some (ws.map fun w => String.ofList w.text) := by
  obtain ⟨all, c', hwalk, -, rfl⟩ := exists_walk_of_tokens h
  have hwritten := (Cursor.at_start b).written hwalk
  clear h hwalk
  induction all with
  | nil => exact ⟨[], rfl, rfl⟩
  | cons t all ih =>
    obtain ⟨ws, hlexemes, hslices⟩ := ih fun u hu => hwritten u (List.mem_cons_of_mem t hu)
    by_cases ht : t.isTrivia
    · exact ⟨ws, by simpa [ht] using hlexemes, by simpa [ht] using hslices⟩
    · obtain ⟨w, hslice, hscan⟩ := hwritten t List.mem_cons_self
      have hcarries : t.lexeme.kind.isTrivia = false := Bool.not_eq_true _ ▸ ht
      refine ⟨⟨t.lexeme, w, hscan, hcarries⟩ :: ws, by simp [ht, hlexemes], ?_⟩
      simp [ht, hslice, hslices]

/-- Spacing is invisible : the tokens of a text that carry meaning, written with single spaces in
between, are cut into the same lexemes. -/
theorem respaced (h : b.tokens = .ok ts) : ∃ text, b.respace? ts = some text ∧
    ∀ name, ∃ ts', tokens ⟨name, text⟩ = .ok ts' ∧ ts'.map Token.lexeme = ts.map Token.lexeme := by
  obtain ⟨ws, hlexemes, hslices⟩ := exists_writtenLexemes h
  refine ⟨_, by rw [respace?, hslices]; rfl, fun name => ?_⟩
  obtain ⟨us, d', hwalk, hend, hus⟩ := Walk.exists_of_spaced ws
    (d := Cursor.start ⟨name, " ".intercalate (ws.map fun w => String.ofList w.text)⟩)
    (by simp [Cursor.start, chars, WrittenLexeme.spaced, Function.comp_def])
  refine ⟨_, tokens_of_walk hwalk hend, ?_⟩
  rw [← hlexemes, ← hus, meaningful, List.filter_map]
  rfl

/-- Two signs that would be one mark without the blank, the sign of an exponent, and a
comment that goes away. -/
theorem respaced_signs : ∃ ts, (anonymous "a- -1.5e+2//b").tokens = .ok ts ∧
    (anonymous "a- -1.5e+2//b").respace? ts = some "a - - 1.5e+2" ∧
    ∃ ts', (anonymous "a - - 1.5e+2").tokens = .ok ts' ∧
    ts'.map Token.lexeme = ts.map Token.lexeme := by
  have htokens : (anonymous "a- -1.5e+2//b").tokens = .ok [⟨.identifier "a", ⟨1, 1⟩, ⟨1, 2⟩⟩,
      ⟨.punctuation "-", ⟨1, 2⟩, ⟨1, 3⟩⟩, ⟨.punctuation "-", ⟨1, 4⟩, ⟨1, 5⟩⟩,
      ⟨.number "1.5e+2", ⟨1, 5⟩, ⟨1, 11⟩⟩] := by
    decide +kernel
  obtain ⟨text, htext, hrespaced⟩ := respaced htokens
  have hwritten : (anonymous "a- -1.5e+2//b").respace? [⟨.identifier "a", ⟨1, 1⟩, ⟨1, 2⟩⟩,
      ⟨.punctuation "-", ⟨1, 2⟩, ⟨1, 3⟩⟩, ⟨.punctuation "-", ⟨1, 4⟩, ⟨1, 5⟩⟩,
      ⟨.number "1.5e+2", ⟨1, 5⟩, ⟨1, 11⟩⟩] =
        some "a - - 1.5e+2" := by
    decide +kernel
  obtain rfl := Option.some.inj (htext.symm.trans hwritten)
  exact ⟨_, htokens, htext, hrespaced _⟩

end Buffer

end Rill
