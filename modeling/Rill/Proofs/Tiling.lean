import Rill.Proofs.Location
import Rill.Proofs.Scan

/-!
# Tokens tile the text

A walk over a buffer cuts its text into tokens that stand side by side. A `Walk` from one cursor to
another is a sequence of lexemes, each read where the one before it ended; it goes on to the end of
the text or to a fault (`exists_walk`), and the calls of a tokenizer answer it step by step, then
nothing any more (`Tokenizer.calls_of_walk`).

`Buffer.Tiling` collects what follows for the tokens of any text (`Buffer.exists_tiling`) : their
ranges are contiguous from the first location on, none is empty, and what the ranges hold adds up to
the text, or to the part of it before the fault.
-/

namespace Rill

/-! ## Calls of a tokenizer -/

namespace Tokenizer

variable {t : Tokenizer} {l : Lexeme} {n : Nat}

/-- The tokenizer after `k` calls. -/
def calls : Nat → Tokenizer → Tokenizer
  | 0, t => t
  | k + 1, t => t.next.2.calls k

/-- The tokenizer after a lexeme of `n` characters. -/
def after (t : Tokenizer) (l : Lexeme) (n : Nat) : Tokenizer :=
  { t with
    cursor := t.cursor.advance n
    last := some ⟨l, t.cursor.location, (t.cursor.advance n).location⟩ }

@[simp]
theorem rest_after : (t.after l n).cursor.rest = t.cursor.rest.drop n :=
  Cursor.rest_advance n t.cursor

@[simp]
theorem failed_after : (t.after l n).failed = t.failed := rfl

theorem next_lexeme (hfailed : t.failed = false) (h : scan t.cursor.rest = some (.lexeme l n)) :
    t.next = (some (.ok ⟨l, t.cursor.location, (t.cursor.advance n).location⟩), t.after l n) := by
  simp [next, hfailed, h, after]

theorem next_fault {f : LexFault} (hfailed : t.failed = false)
    (h : scan t.cursor.rest = some (.fault f n)) :
    t.next = (some (.error ⟨f, t.cursor.location, (t.cursor.advance n).location⟩),
      { t with cursor := t.cursor.advance n, failed := true }) := by
  simp [next, hfailed, h]

theorem next_failed (h : t.failed) : t.next = (none, t) := by
  simp [next, h]

theorem next_atEnd (h : t.cursor.rest = []) : t.next = (none, t) := by
  simp [next, h, scan]

/-- A call that moves nothing is answered alike ever after. -/
theorem calls_of_next_none (h : t.next = (none, t)) (k : Nat) : t.calls k = t := by
  induction k with
  | zero => rfl
  | succ k ih => rw [calls, h, ih]

end Tokenizer

/-! ## Walks -/

/-- The lexemes read from one cursor on, each where the one before it ended, up to
another cursor. -/
inductive Walk : Cursor → List Token → Cursor → Prop
  | done (c : Cursor) : Walk c [] c
  | step {c c' : Cursor} {l : Lexeme} {n : Nat} {ts : List Token}
      (h : scan c.rest = some (.lexeme l n))
      (more : Walk (c.advance n) ts c') : Walk c (⟨l, c.location, (c.advance n).location⟩ :: ts) c'

/-- How a walk ends at a cursor : at the end of the text, or with a fault. -/
inductive WalkEnds (c : Cursor) : Option LexError → Prop
  | text (h : c.rest = []) : WalkEnds c none
  | fault {f : LexFault} {n : Nat} (h : scan c.rest = some (.fault f n)) :
      WalkEnds c (some ⟨f, c.location, (c.advance n).location⟩)

/-- Every text is walked over to its end or to a fault. -/
theorem exists_walk (c : Cursor) : ∃ ts c' error, Walk c ts c' ∧ WalkEnds c' error := by
  induction hlen : c.rest.length using Nat.strongRecOn generalizing c with
  | ind len ih =>
    cases hscan : scan c.rest with
    | none =>
      have hrest : c.rest = [] := by
        cases hc : c.rest with
        | nil => rfl
        | cons ch rest => simp [hc, scan] at hscan
      exact ⟨[], c, none, .done c, .text hrest⟩
    | some r =>
      cases r with
      | fault f n => exact ⟨[], c, _, .done c, .fault hscan⟩
      | lexeme l n =>
        have hpos := extent_of_scan hscan
        simp only [Scan.extent] at hpos
        have hless : (c.advance n).rest.length < len := by
          rw [Cursor.rest_advance, List.length_drop]
          omega
        obtain ⟨ts, c', error, hwalk, hends⟩ := ih _ hless (c.advance n) rfl
        exact ⟨_, c', error, .step hscan hwalk, hends⟩

/-- The items of a walk : its tokens, and the fault that ends it. -/
def walkItems (ts : List Token) (error : Option LexError) : List Item :=
  ts.map .ok ++ error.toList.map .error

namespace Tokenizer

variable {t : Tokenizer} {ts : List Token} {c' : Cursor} {error : Option LexError}

/-- Where a walk ends, the calls answer with its fault, if there is one, and with
nothing after it. -/
theorem calls_of_walkEnds (hfailed : t.failed = false) (h : WalkEnds t.cursor error) (k : Nat) :
    (t.calls k).next.1 = (walkItems [] error)[k]? ∧
      ((walkItems [] error).length ≤ k → (t.calls k).next = (none, t.calls k)) := by
  cases h with
  | text h =>
    have hnext := next_atEnd h
    rw [calls_of_next_none hnext k, hnext]
    simp [walkItems]
  | @fault f n h =>
    have hnext := next_fault hfailed h
    cases k with
    | zero => simp [calls, hnext, walkItems]
    | succ k =>
      have hafter := next_failed (t := ⟨t.cursor.advance n, t.last, true⟩) rfl
      rw [calls, hnext, calls_of_next_none hafter k, hafter]
      simp [walkItems]

/-- The calls of a tokenizer answer with the items of the walk, one by one, and with
nothing after them. -/
theorem calls_of_walk {c : Cursor} (hwalk : Walk c ts c') (hends : WalkEnds c' error)
    {t : Tokenizer} (hcursor : t.cursor = c) (hfailed : t.failed = false) (k : Nat) :
    (t.calls k).next.1 = (walkItems ts error)[k]? ∧
      ((walkItems ts error).length ≤ k → (t.calls k).next = (none, t.calls k)) := by
  induction hwalk generalizing t k with
  | done c => exact calls_of_walkEnds hfailed (hcursor ▸ hends) k
  | @step c c' l n ts hscan more ih =>
    subst hcursor
    have hnext := next_lexeme hfailed hscan
    cases k with
    | zero => simp [calls, hnext, walkItems]
    | succ k =>
      have hrest := ih hends (t := t.after l n) rfl hfailed k
      simp only [calls, hnext]
      simpa [walkItems] using hrest

end Tokenizer

/-! ## Tiles -/

/-- Ranges that stand side by side from one location to another, none of them empty. -/
def Tiles : Location → List Range → Location → Prop
  | l, [], l' => l = l'
  | l, r :: rs, l' => r.start = l ∧ l < r.stop ∧ Tiles r.stop rs l'

/-- What a token stands for in a buffer : the text of its range, which is not empty and is what the
token says, unless it denotes a string or a character. -/
structure Buffer.Piece (b : Buffer) (t : Token) (s : String) : Prop where
  slice : b.slice? t.range = some s
  nonempty : s ≠ ""
  text : t.kind ≠ .string → t.kind ≠ .char → s = t.lexeme.text

theorem take_ne_nil_of_scan {cs : List Char} {r : Scan} (h : scan cs = some r) :
    cs.take r.extent ≠ [] := by
  have hpos := extent_of_scan h
  intro hnil
  have hlen := congrArg List.length hnil
  rw [List.length_take, List.length_nil] at hlen
  omega

namespace Cursor.At

variable {b : Buffer} {before : List Char} {c c' : Cursor} {ts : List Token}

/-- The token that is read at a cursor stands for the characters that it takes. -/
theorem piece (h : c.At b before) {l : Lexeme} {n : Nat}
    (hscan : scan c.rest = some (.lexeme l n)) :
    b.Piece ⟨l, c.location, (c.advance n).location⟩ (String.ofList (c.rest.take n)) where
  slice := h.slice? n
  nonempty := by simpa [Scan.extent] using take_ne_nil_of_scan hscan
  text hstring hchar := (text_of_scan hscan hstring hchar).symm

/-- Each token of a walk is a lexeme that was read where the token stands. -/
theorem exists_scan (h : c.At b before) (hwalk : Walk c ts c') :
    ∀ t ∈ ts, ∃ (before' : List Char) (d : Cursor) (n : Nat), d.At b before' ∧
      scan d.rest = some (.lexeme t.lexeme n) ∧ t.range = ⟨d.location, (d.advance n).location⟩ := by
  induction hwalk generalizing before with
  | done c => simp
  | @step c c' l n ts hscan more ih =>
    exact List.forall_mem_cons.2 ⟨⟨before, c, n, h, hscan, rfl⟩, ih (h.advance n)⟩

/-- A walk tiles the text between its cursors. -/
theorem walk (h : c.At b before) (hwalk : Walk c ts c') :
    Tiles c.location (ts.map Token.range) c'.location ∧
      ∃ pieces, List.Forall₂ b.Piece ts pieces ∧
      c'.At b (before ++ pieces.flatMap String.toList) := by
  induction hwalk generalizing before with
  | done c => exact ⟨rfl, [], .nil, by simpa using h⟩
  | @step c c' l n ts hscan more ih =>
    obtain ⟨htiles, pieces, hpieces, hstop⟩ := ih (h.advance n)
    refine ⟨⟨rfl, h.location_lt (take_ne_nil_of_scan hscan), htiles⟩, ?_⟩
    exact ⟨_ :: pieces, .cons (h.piece hscan) hpieces, by simpa using hstop⟩

end Cursor.At

/-- The tokens and the fault of a buffer tile its text. `pieces` is what the ranges of the tokens
hold, `stop` where the last of them ends. -/
structure Buffer.Tiling (b : Buffer) (ts : List Token) (error : Option LexError) : Prop where
  /-- The calls of a tokenizer give the tokens in order, and the fault after them. -/
  answers (k : Nat) : ((Tokenizer.start b).calls k).next.1 = (walkItems ts error)[k]?
  /-- Every later call gives nothing and leaves the tokenizer as it is. -/
  exhausted (k : Nat) (h : (walkItems ts error).length ≤ k) :
    ((Tokenizer.start b).calls k).next = (none, (Tokenizer.start b).calls k)
  tiles : ∃ stop pieces rest,
    Tiles .origin (ts.map Token.range) stop ∧
    List.Forall₂ b.Piece ts pieces ∧
    b.chars = pieces.flatMap String.toList ++ rest ∧
    (error = none → rest = [] ∧ b.location? b.size = some stop) ∧
    ∀ e ∈ error, e.range.start = stop ∧
      (∃ s, b.slice? e.range = some s ∧ s ≠ "" ∧ s.toList <+: rest) ∧
      ∃ o o', b.range? o o' = some e.range ∧ o < o' ∧ o' ≤ b.size

/-- Every text is tiled by its tokens, up to its end or to a fault. -/
theorem Buffer.exists_tiling (b : Buffer) : ∃ ts error, b.Tiling ts error := by
  obtain ⟨ts, c', error, hwalk, hends⟩ := exists_walk (Cursor.start b)
  have hcalls := Tokenizer.calls_of_walk hwalk hends (t := Tokenizer.start b) rfl rfl
  obtain ⟨htiles, pieces, hpieces, hstop⟩ := (Cursor.at_start b).walk hwalk
  rw [List.nil_append] at hstop
  refine ⟨ts, error, fun k => (hcalls k).1, fun k => (hcalls k).2, c'.location, pieces,
    c'.rest, htiles, hpieces, hstop.chars, ?_, ?_⟩
  · rintro rfl
    cases hends with
    | text hrest =>
      have hsize : b.size = c'.offset := by
        rw [hstop.offset, size, hstop.chars, hrest, List.append_nil]
      exact ⟨hrest, by rw [hsize, hstop.location?]⟩
  · rintro e rfl
    cases hends with
    | @fault f n hscan =>
      have htaken := take_ne_nil_of_scan hscan
      refine ⟨rfl, ⟨_, hstop.slice? n, by simpa [Scan.extent] using htaken,
        by simpa using List.take_prefix _ _⟩, ?_⟩
      exact ⟨_, _, hstop.range? n, hstop.offset_lt htaken, (hstop.advance n).offset_le_size⟩

end Rill
