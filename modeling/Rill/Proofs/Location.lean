import Mathlib.Data.List.Induction
import Rill.Source.Cursor

/-!
# Locations and offsets

A text `before ++ rest` is cut at a place, and the place has a byte offset, `byteLength before`, and
a location, `Location.past .origin before rest` : the location that a cursor has after walking over
`before`. The table of line starts gives the same correspondence without a walk.
`Buffer.location?_byteLength` and `Buffer.offset?_past` say that the two agree at every place
between two characters, whatever line breaks the text has, and `Buffer.slice?_past` that the range
between two such places is the text between them.

The place between a carriage return and a line feed has a location too : the line ends only after
the line feed. So whether a character ends its line depends on what follows it (`EndsLine`), and so
do the line starts that a piece of text opens (`startsIn`).
-/

namespace Rill

/-! ## Bytes -/

@[simp]
theorem byteLength_append (a b : List Char) :
    byteLength (a ++ b) = byteLength a + byteLength b := by
  induction a with
  | nil => simp [byteLength]
  | cons c a ih => simp [byteLength, ih, Nat.add_assoc]

/-- A text has at least as many bytes as characters. -/
theorem length_le_byteLength (cs : List Char) : cs.length ≤ byteLength cs := by
  induction cs with
  | nil => exact Nat.le_refl _
  | cons c cs ih =>
    have hpos := c.utf8Size_pos
    simp only [List.length_cons, byteLength]
    omega

/-- A text can be split where a piece of it ends. -/
theorem splitAtByte?_byteLength (a b : List Char) :
    splitAtByte? (byteLength a) (a ++ b) = some (a, b) := by
  induction a with
  | nil => simp [byteLength, splitAtByte?]
  | cons c a ih =>
    have hpos := c.utf8Size_pos
    obtain ⟨n, hn⟩ : ∃ n, byteLength (c :: a) = n + 1 := ⟨byteLength (c :: a) - 1, by
      simp only [byteLength]; omega⟩
    have hrest : n + 1 - c.utf8Size = byteLength a := by
      simp only [byteLength] at hn
      omega
    have hle : c.utf8Size ≤ n + 1 := by
      simp only [byteLength] at hn
      omega
    rw [hn, List.cons_append, splitAtByte?, if_pos hle, hrest, ih]
    rfl

/-- The text between two places is the piece that stands there. -/
theorem Buffer.between?_byteLength {b : Buffer} {before mid rest : List Char}
    (h : b.chars = before ++ (mid ++ rest)) :
    b.between? (byteLength before) (byteLength (before ++ mid)) = some mid := by
  simp [between?, h, splitAtByte?_byteLength, guard]

/-! ## Line starts -/

/-- Whether a character that stands before `rest` ends its line. -/
def EndsLine (c : Char) (rest : List Char) : Prop :=
  c = '\n' ∨ (c = '\r' ∧ rest.head? ≠ some '\n')

instance (c : Char) (rest : List Char) : Decidable (EndsLine c rest) :=
  inferInstanceAs (Decidable (_ ∨ _))

/-- The line starts that a piece of text before `rest` opens, if it starts at offset `o`. -/
def startsIn (o : Nat) : List Char → List Char → List Nat
  | [], _ => []
  | c :: cs, rest =>
    if EndsLine c (cs ++ rest) then (o + c.utf8Size) :: startsIn (o + c.utf8Size) cs rest
    else startsIn (o + c.utf8Size) cs rest

/-- A line starts after each character that ends one. -/
theorem lineStartsAfter_cons (o : Nat) (c : Char) (cs : List Char) :
    lineStartsAfter o (c :: cs) =
      if EndsLine c cs then (o + c.utf8Size) :: lineStartsAfter (o + c.utf8Size) cs
      else lineStartsAfter (o + c.utf8Size) cs := by
  by_cases hcr : c = '\r'
  · subst hcr
    cases cs with
    | nil => simp [lineStartsAfter, EndsLine, Char.utf8Size]
    | cons d cs =>
      by_cases hlf : d = '\n'
      · subst hlf
        simp [lineStartsAfter, EndsLine, Char.utf8Size]
      · simp [lineStartsAfter, EndsLine, Char.utf8Size, hlf]
  · by_cases hlf : c = '\n'
    · subst hlf
      simp [lineStartsAfter, EndsLine, Char.utf8Size]
    · simp [lineStartsAfter, EndsLine, hcr, hlf]

/-- The line starts of a text are those that a first piece of it opens and those of the rest. -/
theorem lineStartsAfter_append (o : Nat) (before rest : List Char) :
    lineStartsAfter o (before ++ rest) =
      startsIn o before rest ++ lineStartsAfter (o + byteLength before) rest := by
  induction before generalizing o with
  | nil => simp [startsIn, byteLength]
  | cons c cs ih =>
    rw [List.cons_append, lineStartsAfter_cons, ih, startsIn, byteLength, Nat.add_assoc]
    split
    · simp
    · rfl

/-- One more character opens a line if it ends one. -/
theorem startsIn_concat (o : Nat) (before : List Char) (c : Char) (rest : List Char) :
    startsIn o (before ++ [c]) rest =
      startsIn o before (c :: rest) ++
        if EndsLine c rest then [o + byteLength before + c.utf8Size] else [] := by
  induction before generalizing o with
  | nil => simp [startsIn, byteLength]
  | cons d before ih =>
    simp only [List.cons_append, startsIn, ih, List.append_assoc, List.nil_append, byteLength,
      Nat.add_assoc]
    split <;> rfl

/-- A piece of text opens no line behind its end. -/
theorem le_of_mem_startsIn {o n : Nat} {before rest : List Char} (h : n ∈ startsIn o before rest) :
    n ≤ o + byteLength before := by
  induction before generalizing o with
  | nil => simp [startsIn] at h
  | cons c cs ih =>
    have hstep : n = o + c.utf8Size ∨ n ∈ startsIn (o + c.utf8Size) cs rest := by
      rw [startsIn] at h
      split at h
      · exact List.mem_cons.1 h
      · exact .inr h
    rw [byteLength]
    obtain rfl | h := hstep
    · omega
    · have := ih h
      omega

/-- A line that is opened by a text starts behind the first character. -/
theorem lt_of_mem_lineStartsAfter {o n : Nat} {cs : List Char} (h : n ∈ lineStartsAfter o cs) :
    o < n := by
  induction cs generalizing o with
  | nil => simp [lineStartsAfter] at h
  | cons c cs ih =>
    have hpos := c.utf8Size_pos
    have hstep : n = o + c.utf8Size ∨ n ∈ lineStartsAfter (o + c.utf8Size) cs := by
      rw [lineStartsAfter_cons] at h
      split at h
      · exact List.mem_cons.1 h
      · exact .inr h
    obtain rfl | h := hstep
    · omega
    · have := ih h
      omega

/-- The line starts of a buffer up to a place are the first one and those opened
before the place. -/
theorem Buffer.filter_lineStarts {b : Buffer} {before rest : List Char}
    (h : b.chars = before ++ rest) :
    b.lineStarts.filter (· ≤ byteLength before) = 0 :: startsIn 0 before rest := by
  have hbefore : ∀ n ∈ startsIn 0 before rest, n ≤ byteLength before := by
    intro n hn
    simpa using le_of_mem_startsIn hn
  have hafter : ∀ n ∈ lineStartsAfter (byteLength before) rest, ¬ n ≤ byteLength before :=
    fun n hn => Nat.not_le.2 (lt_of_mem_lineStartsAfter hn)
  rw [lineStarts, h, lineStartsAfter_append, Nat.zero_add, List.filter_cons_of_pos (by simp),
    List.filter_append, List.filter_eq_self.2 (by simpa using hbefore),
    List.filter_eq_nil_iff.2 (by simpa using hafter), List.append_nil]

/-! ## The location after a piece of text -/

namespace Location

/-- A character moves a location to the next line or to the next column. -/
theorem after_eq (l : Location) (c : Char) (rest : List Char) :
    l.after c rest = if EndsLine c rest then ⟨l.line + 1, 1⟩ else ⟨l.line, l.column + 1⟩ := rfl

/-- The location after a piece of text that stands before `rest`. -/
def past (l : Location) : List Char → List Char → Location
  | [], _ => l
  | c :: cs, rest => (l.after c (cs ++ rest)).past cs rest

/-- To go past two pieces is to go past one after the other. -/
theorem past_append (l : Location) (a b rest : List Char) :
    l.past (a ++ b) rest = (l.past a (b ++ rest)).past b rest := by
  induction a generalizing l with
  | nil => rfl
  | cons c a ih => simp [past, ih, List.append_assoc]

theorem past_concat (l : Location) (before : List Char) (c : Char) (rest : List Char) :
    l.past (before ++ [c]) rest = (l.past before (c :: rest)).after c rest :=
  past_append l before [c] rest

protected theorem lt_trans {a b c : Location} (h : a < b) (h' : b < c) : a < c := by
  obtain h | ⟨h, hcol⟩ := h <;> obtain h' | ⟨h', hcol'⟩ := h'
  · exact .inl (Nat.lt_trans h h')
  · exact .inl (h' ▸ h)
  · exact .inl (h ▸ h')
  · exact .inr ⟨h.trans h', Nat.lt_trans hcol hcol'⟩

/-- Locations grow with each character. -/
theorem lt_after (l : Location) (c : Char) (rest : List Char) : l < l.after c rest := by
  rw [after_eq]
  split
  · exact .inl (Nat.lt_succ_self _)
  · exact .inr ⟨rfl, Nat.lt_succ_self _⟩

/-- A piece of text that is not empty moves the location forward. -/
theorem lt_past (l : Location) {cs : List Char} (h : cs ≠ []) (rest : List Char) :
    l < l.past cs rest := by
  induction cs generalizing l with
  | nil => exact absurd rfl h
  | cons c cs ih =>
    have hstep := l.lt_after c (cs ++ rest)
    cases cs with
    | nil => exact hstep
    | cons d cs => exact Location.lt_trans hstep (ih _ (by simp))

end Location

/-- A place on its line : the line starts at the last start opened before the place, as many starts
were opened as the line says, and as many characters follow the start as the column says. -/
theorem exists_line (before rest : List Char) :
    ∃ earlier line, before = earlier ++ line ∧
      (0 :: startsIn 0 before rest).getLast? = some (byteLength earlier) ∧
      Location.past .origin before rest =
        ⟨(startsIn 0 before rest).length + 1, line.length + 1⟩ := by
  induction before using List.reverseRec generalizing rest with
  | nil => exact ⟨[], [], rfl, rfl, rfl⟩
  | append_singleton before c ih =>
    obtain ⟨earlier, line, hbefore, hlast, hpast⟩ := ih (c :: rest)
    rw [Location.past_concat, hpast, Location.after_eq, startsIn_concat]
    by_cases hends : EndsLine c rest
    · refine ⟨before ++ [c], [], by simp, ?_, by simp [hends]⟩
      simp [hends, byteLength, List.getLast?_cons]
    · refine ⟨earlier, line ++ [c], by simp [hbefore], ?_, by simp [hends]⟩
      simpa [hends] using hlast

namespace Buffer

variable {b : Buffer} {before mid rest : List Char}

/-- The location found in the table of line starts is the one after the text before it. -/
theorem location?_byteLength (h : b.chars = before ++ rest) :
    b.location? (byteLength before) = some (Location.past .origin before rest) := by
  obtain ⟨earlier, line, rfl, hlast, hpast⟩ := exists_line before rest
  have hsize : min (byteLength (earlier ++ line)) b.size = byteLength (earlier ++ line) := by
    rw [size, h, byteLength_append (earlier ++ line)]
    omega
  rw [List.append_assoc] at h
  rw [location?, hsize, filter_lineStarts (by simpa using h), hlast]
  simp only [Option.getD_some, between?_byteLength h, Option.map_some, hpast, List.length_cons]

/-- The offset of the location after a piece of text is the number of its bytes. -/
theorem offset?_past (h : b.chars = before ++ rest) :
    b.offset? (Location.past .origin before rest) = some (byteLength before) := by
  obtain ⟨earlier, line, rfl, hlast, hpast⟩ := exists_line before rest
  have hstart : b.lineStarts[(startsIn 0 (earlier ++ line) rest).length]? =
      some (byteLength earlier) := by
    rw [lineStarts, h, lineStartsAfter_append, ← List.cons_append,
      List.getElem?_append_left (by simp), ← hlast, List.getLast?_eq_getElem?]
    rfl
  rw [List.append_assoc] at h
  simp [offset?, hpast, hstart, h, splitAtByte?_byteLength]

/-- The range between two places is the text between them. -/
theorem slice?_past (h : b.chars = before ++ (mid ++ rest)) :
    b.slice?
      ⟨Location.past .origin before (mid ++ rest), Location.past .origin (before ++ mid) rest⟩ =
      some (String.ofList mid) := by
  have hstop : b.chars = before ++ mid ++ rest := by rw [h, List.append_assoc]
  simp only [slice?, offset?_past h, offset?_past hstop, Option.bind_eq_bind, Option.bind_some,
    between?_byteLength h]
  rfl

end Buffer

/-! ## Cursors -/

namespace Cursor

/-- A cursor of a buffer that has walked over the text `before`. -/
structure At (b : Buffer) (before : List Char) (c : Cursor) : Prop where
  chars : b.chars = before ++ c.rest
  offset : c.offset = byteLength before
  location : c.location = Location.past .origin before c.rest

theorem at_start (b : Buffer) : At b [] (start b) := ⟨rfl, rfl, rfl⟩

/-- A step of a cursor keeps its offset and location in step with the text it has walked over. -/
theorem At.next? {b : Buffer} {before : List Char} {c : Cursor} (h : c.At b before) {p : Placed}
    {c' : Cursor} (hnext : c.next? = some (p, c')) :
    c.rest = p.char :: c'.rest ∧ c'.At b (before ++ [p.char]) := by
  obtain ⟨rest, offset, location⟩ := c
  cases rest with
  | nil => simp [Cursor.next?] at hnext
  | cons ch rest =>
    simp only [Cursor.next?, Option.some.injEq, Prod.mk.injEq] at hnext
    obtain ⟨rfl, rfl⟩ := hnext
    refine ⟨rfl, ?_, ?_, ?_⟩
    · simp [h.chars]
    · simpa [byteLength] using h.offset
    · rw [Location.past_concat, ← h.location]

theorem rest_advance (n : Nat) (c : Cursor) : (c.advance n).rest = c.rest.drop n := by
  induction n generalizing c with
  | zero => rfl
  | succ n ih =>
    cases h : c.rest with
    | nil => simp [advance, next?, h]
    | cons ch rest => simp [advance, next?, h, ih]

/-- A walk over `n` characters, or to the end of the text, keeps them in step too. -/
theorem At.advance {b : Buffer} (n : Nat) {before : List Char} {c : Cursor} (h : c.At b before) :
    (c.advance n).At b (before ++ c.rest.take n) := by
  induction n generalizing before c with
  | zero => simpa [Cursor.advance] using h
  | succ n ih =>
    cases hnext : c.next? with
    | none =>
      have hrest : c.rest = [] := by
        cases hc : c.rest with
        | nil => rfl
        | cons ch rest => simp [Cursor.next?, hc] at hnext
      simpa [Cursor.advance, hnext, hrest] using h
    | some r =>
      obtain ⟨p, c'⟩ := r
      obtain ⟨hrest, h'⟩ := h.next? hnext
      simp only [Cursor.advance, hnext, hrest, List.take_succ_cons]
      simpa using ih h'

section

variable {b : Buffer} {before : List Char} {c : Cursor}

/-- The table of line starts gives the location that a cursor has. -/
theorem At.location? (h : c.At b before) : b.location? c.offset = some c.location := by
  rw [h.offset, h.location]
  exact Buffer.location?_byteLength h.chars

/-- The range that a walk covers, by offsets. -/
theorem At.range? (h : c.At b before) (n : Nat) :
    b.range? c.offset (c.advance n).offset = some ⟨c.location, (c.advance n).location⟩ := by
  simp only [Buffer.range?, h.location?, (h.advance n).location?]
  rfl

/-- The range that a walk covers holds the characters walked over. -/
theorem At.slice? (h : c.At b before) (n : Nat) :
    b.slice? ⟨c.location, (c.advance n).location⟩ = some (String.ofList (c.rest.take n)) := by
  have hcut : c.rest = c.rest.take n ++ c.rest.drop n := (List.take_append_drop n c.rest).symm
  rw [h.location, (h.advance n).location, rest_advance]
  nth_rewrite 1 [hcut]
  exact Buffer.slice?_past (by rw [← hcut, h.chars])

/-- A cursor does not leave its buffer. -/
theorem At.offset_le_size (h : c.At b before) : c.offset ≤ b.size := by
  rw [h.offset, Buffer.size, h.chars, byteLength_append]
  exact Nat.le_add_right _ _

theorem At.offset_lt (h : c.At b before) {n : Nat} (hn : c.rest.take n ≠ []) :
    c.offset < (c.advance n).offset := by
  have hpos := List.length_pos_iff.2 hn
  have hle := length_le_byteLength (c.rest.take n)
  rw [h.offset, (h.advance n).offset, byteLength_append]
  omega

/-- A cursor that advances comes to a later location. -/
theorem At.location_lt (h : c.At b before) {n : Nat} (hn : c.rest.take n ≠ []) :
    c.location < (c.advance n).location := by
  rw [(h.advance n).location, Location.past_append, rest_advance, List.take_append_drop,
    ← h.location]
  exact Location.lt_past _ hn _

end

end Cursor

end Rill
