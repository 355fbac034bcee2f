import Rill.Proofs.Location

/-!
# Columns past the end of a line

The offset of a location is found by a walk from the start of its line. The walk counts characters
and does not look at line breaks, so a column past the end of a line does not stop there : it is a
column of the next line, with the characters of the line taken off (`Buffer.LineCut.offset?_next`),
and only the end of the text stops it.

A text is cut around each of its lines (`Buffer.exists_lineCut`), and a line has its line break with
it. The first line start after a place ends the line of that place (`lineStartsAfter_cases`); all
lines follow by induction on their numbers.
-/

namespace Rill

theorem byteLength_take_le (n : Nat) (cs : List Char) : byteLength (cs.take n) ≤ byteLength cs := by
  have hsplit := congrArg byteLength (List.take_append_drop n cs)
  rw [byteLength_append] at hsplit
  omega

/-! ## Lines -/

/-- Either no line starts in the text, or its first line ends where the next line starts. -/
theorem lineStartsAfter_cases (o : Nat) (cs : List Char) :
    lineStartsAfter o cs = [] ∨
      ∃ line rest, cs = line ++ rest ∧
        lineStartsAfter o cs =
          (o + byteLength line) :: lineStartsAfter (o + byteLength line) rest := by
  induction cs generalizing o with
  | nil => exact .inl rfl
  | cons c cs ih =>
    rw [lineStartsAfter_cons]
    split
    · exact .inr ⟨[c], cs, rfl, by simp [byteLength]⟩
    · rcases ih (o + c.utf8Size) with hnone | ⟨line, rest, rfl, hstarts⟩
      · exact .inl hnone
      · refine .inr ⟨c :: line, rest, rfl, ?_⟩
        rw [hstarts, byteLength, Nat.add_assoc]

/-- A line lies between its start and the next one, and the last line goes to the
end of the text. -/
theorem exists_line_of_lineStarts {k start : Nat} {o : Nat} {cs : List Char}
    (h : (o :: lineStartsAfter o cs)[k]? = some start) :
    ∃ earlier line rest, cs = earlier ++ (line ++ rest) ∧ start = o + byteLength earlier ∧
      ((o :: lineStartsAfter o cs)[k + 1]? = some (o + byteLength (earlier ++ line)) ∨
        (o :: lineStartsAfter o cs)[k + 1]? = none ∧ rest = []) := by
  induction k generalizing o cs with
  | zero =>
    obtain rfl : o = start := Option.some.inj h
    rcases lineStartsAfter_cases o cs with hnone | ⟨line, rest, rfl, hstarts⟩
    · exact ⟨[], cs, [], by simp, rfl, .inr ⟨by rw [hnone]; rfl, rfl⟩⟩
    · exact ⟨[], line, rest, rfl, rfl, .inl (by rw [hstarts]; rfl)⟩
  | succ k ih =>
    rw [List.getElem?_cons_succ] at h ⊢
    rcases lineStartsAfter_cases o cs with hnone | ⟨line, rest, rfl, hstarts⟩
    · rw [hnone] at h
      cases h
    · rw [hstarts] at h ⊢
      obtain ⟨earlier, line', rest', rfl, rfl, hnext⟩ := ih h
      refine ⟨line ++ earlier, line', rest', by simp, by simp [Nat.add_assoc], ?_⟩
      simpa [Nat.add_assoc] using hnext

namespace Buffer

/-- Where a line ends : at the start of the next line, or at the end of the text. -/
def lineStop (b : Buffer) (l : Nat) : Nat := b.lineStarts[l]?.getD b.size

/-- The text cut around a line : what comes before the line, the line with its line break,
and what comes after. -/
structure LineCut (b : Buffer) (l : Nat) (earlier line rest : List Char) : Prop where
  pos : 0 < l
  chars : b.chars = earlier ++ (line ++ rest)
  start : b.lineStarts[l - 1]? = some (byteLength earlier)
  stop : b.lineStop l = byteLength (earlier ++ line)
  next : l < b.lineCount → b.lineStarts[l]? = some (byteLength (earlier ++ line))
  last : l = b.lineCount → rest = []

variable {b : Buffer} {l c : Nat} {earlier line rest : List Char}

theorem exists_lineCut (hl : 0 < l) (hl' : l ≤ b.lineCount) :
    ∃ earlier line rest, b.LineCut l earlier line rest := by
  obtain ⟨k, rfl⟩ : ∃ k, l = k + 1 := ⟨l - 1, by omega⟩
  have hk : k < b.lineStarts.length := hl'
  obtain ⟨earlier, line, rest, hchars, hstart, hnext⟩ :=
    exists_line_of_lineStarts (List.getElem?_eq_getElem (l := b.lineStarts) hk)
  rw [Nat.zero_add] at hstart hnext
  refine ⟨earlier, line, rest, hl, hchars, ?_, ?_, fun hlt => ?_, fun hlast => ?_⟩
  · rw [Nat.add_sub_cancel, List.getElem?_eq_getElem hk]
    exact congrArg some hstart
  · rcases hnext with hnext | ⟨hnone, rfl⟩
    · exact congrArg (Option.getD · b.size) hnext
    · refine (congrArg (Option.getD · b.size) hnone).trans ?_
      rw [Option.getD_none, size, hchars, List.append_nil]
  · refine hnext.resolve_right fun h => ?_
    have hle := List.getElem?_eq_none_iff.1 h.1
    exact Nat.not_le.2 hlt hle
  · refine (hnext.resolve_left fun h => ?_).2
    obtain ⟨hlt, -⟩ := List.getElem?_eq_some_iff.1 h
    exact Nat.ne_of_lt hlt hlast

/-! ## Columns -/

/-- The offset of a column is that of as many characters after the start of the line. -/
theorem offset?_of_start {after : List Char} (hl : 0 < l) (hc : 0 < c)
    (hchars : b.chars = earlier ++ after)
    (hstart : b.lineStarts[l - 1]? = some (byteLength earlier)) :
    b.offset? ⟨l, c⟩ = some (byteLength (earlier ++ after.take (c - 1))) := by
  have hnot : ¬(l = 0 ∨ c = 0) := by omega
  simp [offset?, hnot, hstart, hchars, splitAtByte?_byteLength]

namespace LineCut

variable (h : b.LineCut l earlier line rest)

include h

theorem offset?_eq (hc : 0 < c) :
    b.offset? ⟨l, c⟩ = some (byteLength (earlier ++ (line ++ rest).take (c - 1))) :=
  offset?_of_start h.pos hc h.chars h.start

theorem size_eq : b.size = byteLength (earlier ++ (line ++ rest)) := by rw [size, h.chars]

theorem stop_eq_size_iff : b.lineStop l = b.size ↔ rest = [] := by
  rw [h.stop, h.size_eq, ← List.append_assoc, byteLength_append (earlier ++ line)]
  refine ⟨fun heq => ?_, fun hrest => by rw [hrest]; rfl⟩
  have hlength := length_le_byteLength rest
  exact List.length_eq_zero_iff.1 (by omega)

/-- A column that is past a line is a column of the next line. -/
theorem offset?_next (hc : line.length < c) (hlt : l < b.lineCount) :
    b.offset? ⟨l, c⟩ = b.offset? ⟨l + 1, c - line.length⟩ := by
  have hchars : b.chars = earlier ++ line ++ rest := by rw [h.chars, List.append_assoc]
  have hcolumn : c - line.length - 1 = c - 1 - line.length := by omega
  rw [h.offset?_eq (by omega), offset?_of_start (by omega) (by omega) hchars (h.next hlt), hcolumn,
    List.take_append, List.take_of_length_le (by omega), List.append_assoc]

/-- The walk stays on the line if and only if it does not count more characters than the line has,
or there are no more. -/
theorem byteLength_le_stop_iff :
    byteLength (earlier ++ (line ++ rest).take (c - 1)) ≤ b.lineStop l ↔
    c ≤ line.length + 1 ∨ rest = [] := by
  have hline := byteLength_take_le (c - 1) line
  rw [h.stop, List.take_append, byteLength_append, byteLength_append, byteLength_append]
  constructor
  · intro hle
    rcases Nat.lt_or_ge (line.length + 1) c with hlt | hge
    · have hrest := length_le_byteLength (rest.take (c - 1 - line.length))
      rw [List.length_take] at hrest
      rw [List.take_of_length_le (by omega)] at hle
      exact .inr (List.length_eq_zero_iff.1 (by omega))
    · exact .inl hge
  · rintro (hc | rfl)
    · have hzero : c - 1 - line.length = 0 := by omega
      rw [hzero, List.take_zero, byteLength]
      omega
    · rw [List.take_nil, byteLength]
      omega

/-- A column that is not past a line is the place after as many characters of the line. -/
theorem between?_of_le (hc : c ≤ line.length + 1) :
    b.between? (byteLength earlier) (byteLength (earlier ++ (line ++ rest).take (c - 1))) =
      some (line.take (c - 1)) := by
  have htake : (line ++ rest).take (c - 1) = line.take (c - 1) :=
    List.take_append_of_le_length (by omega)
  have hchars : b.chars = earlier ++ (line.take (c - 1) ++ (line.drop (c - 1) ++ rest)) := by
    rw [← List.append_assoc (line.take _), List.take_append_drop, h.chars]
  rw [htake, between?_byteLength hchars]

/-- A column that is past the last line is the end of the text. -/
theorem byteLength_eq_size (hc : line.length < c) (hlast : l = b.lineCount) :
    byteLength (earlier ++ (line ++ rest).take (c - 1)) = b.size := by
  have hrest := h.last hlast
  rw [h.size_eq, hrest, List.append_nil, List.take_of_length_le (by omega)]

end LineCut

/-- The offset of a column lies between the start of its line and the end of the text. It is not
past the end of its line if and only if the column is at most one past the characters of the line,
its line break included, or the text ends with the line. Such a column is the place after as many
characters of the line. A column that is past the line is a column of the next line, with the
characters of the line taken off, and the end of the text if there is no next line. -/
theorem columns_walk_on (b : Buffer) (l c : Nat) (hl : 0 < l) (hl' : l ≤ b.lineCount) (hc : 0 < c) :
    ∃ start line o, b.lineStarts[l - 1]? = some start ∧
      b.between? start (b.lineStop l) = some line ∧
      b.offset? ⟨l, c⟩ = some o ∧ start ≤ o ∧ o ≤ b.size ∧
      (o ≤ b.lineStop l ↔ c ≤ line.length + 1 ∨ b.lineStop l = b.size) ∧
      (c ≤ line.length + 1 → b.between? start o = some (line.take (c - 1))) ∧
      (line.length < c → l < b.lineCount → b.offset? ⟨l + 1, c - line.length⟩ = some o) ∧
      (line.length < c → l = b.lineCount → o = b.size) := by
  obtain ⟨earlier, line, rest, h⟩ := exists_lineCut hl hl'
  have hoffset := h.offset?_eq hc
  have hle := byteLength_take_le (c - 1) (line ++ rest)
  refine ⟨byteLength earlier, line, _, h.start, ?_, hoffset, ?_, ?_, ?_, h.between?_of_le,
    fun hpast hlt => ?_, h.byteLength_eq_size⟩
  · rw [h.stop, between?_byteLength h.chars]
  · rw [byteLength_append]
    omega
  · rw [h.size_eq, byteLength_append, byteLength_append]
    omega
  · rw [h.stop_eq_size_iff, h.byteLength_le_stop_iff]
  · rw [← h.offset?_next hpast hlt, hoffset]

/-- Two lines that end in different ways, before an empty one. On the first line the second column
is the place before the line break, and the fifth one is the second of the next line. -/
theorem columns_walk_on_mixed :
    let b := anonymous "é\r\nb\n"
    (1 ≤ b.lineCount ∧ b.offset? ⟨1, 2⟩ = some 2 ∧ b.between? 0 2 = some ['é']) ∧
    (b.lineStop 1 = 4 ∧ b.lineStop 1 ≠ b.size ∧ b.offset? ⟨1, 5⟩ = b.offset? ⟨2, 2⟩ ∧
      ∃ o, b.offset? ⟨1, 5⟩ = some o ∧ ¬o ≤ b.lineStop 1) ∧
    b.lineCount = 3 ∧ b.offset? ⟨3, 9⟩ = some b.size := by
  intro b
  have hlines : b.lineCount = 3 := by decide
  have hfirst : b.between? 0 (b.lineStop 1) = some ['é', '\r', '\n'] := by decide
  refine ⟨⟨by decide, by decide, ?_⟩, ⟨by decide, by decide, ?_⟩, hlines, ?_⟩
  · obtain ⟨start, line, o, hstart, hline, ho, -, -, -, hinside, -, -⟩ :=
      b.columns_walk_on 1 2 (by decide) (by decide) (by decide)
    obtain rfl : start = 0 := Option.some.inj (hstart.symm.trans (by decide))
    obtain rfl := Option.some.inj (hline.symm.trans hfirst)
    obtain rfl : o = 2 := Option.some.inj (ho.symm.trans (by decide))
    exact hinside (by decide)
  · obtain ⟨start, line, o, hstart, hline, ho, -, -, hstays, -, hnext, -⟩ :=
      b.columns_walk_on 1 5 (by decide) (by decide) (by decide)
    obtain rfl : start = 0 := Option.some.inj (hstart.symm.trans (by decide))
    obtain rfl := Option.some.inj (hline.symm.trans hfirst)
    refine ⟨ho.trans (hnext (by decide) (by decide)).symm, o, ho, ?_⟩
    rw [hstays]
    decide
  · obtain ⟨start, line, o, hstart, hline, ho, -, -, -, -, -, hend⟩ :=
      b.columns_walk_on 3 9 (by decide) (by decide) (by decide)
    obtain rfl : start = 6 := Option.some.inj (hstart.symm.trans (by decide))
    obtain rfl : line = [] := Option.some.inj (hline.symm.trans (by decide))
    rw [ho, hend (by decide) hlines.symm]

/-- Columns past the end of a line do not stay on it. The fourth column of a line of one character
and a line break is the end of the next line. -/
theorem column_on_next_line :
    let b := anonymous "a\nb"
    1 ≤ b.lineCount ∧ b.lineStarts[1]? = some 2 ∧ b.offset? ⟨1, 4⟩ = some 3 ∧
    ¬3 ≤ b.lineStop 1 := by
  decide

end Buffer

end Rill
