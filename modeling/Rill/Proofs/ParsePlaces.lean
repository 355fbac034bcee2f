import Rill.Proofs.Places
import Rill.Proofs.Steady

/-!
# Where parsing fails

A parser fails at its current token, at a token that it has seen before, at a fault that follows, or
at the end of the source. So whatever holds of the ranges of all these (`Parser.Shows`) holds of the
range of every error (`unscoped_shows`).

For a buffer, these ranges cover pieces of its text, so its errors do too
(`Buffer.covers_of_script`, `Buffer.covers_of_program`).
-/

namespace Rill

/-- What holds of all ranges at which a parser can fail : those of the tokens and faults ahead of
it, and the end of the source. -/
structure Parser.Shows (P : Range → Prop) (p : Parser) : Prop where
  current : ∀ t ∈ p.current, P t.range
  upcoming : ∀ i ∈ p.upcoming.remaining, P i.range
  stop : P ⟨p.sourceEnd, p.sourceEnd⟩

namespace Parser.Shows

variable {P : Range → Prop} {p : Parser}

theorem place (h : p.Shows P) : P p.place := by
  unfold Parser.place
  cases hc : p.current with
  | none => exact h.stop
  | some t => exact h.current t hc

theorem moved (h : p.Shows P) : p.moved.Shows P where
  current t ht := by
    cases hnext : p.upcoming.remaining.head? with
    | none => simp [Parser.moved, hnext] at ht
    | some i =>
      have hi := h.upcoming i (List.mem_of_head? hnext)
      cases i with
      | error e => simp [Parser.moved, hnext] at ht
      | ok u =>
        obtain rfl : u = t := by simpa [Parser.moved, hnext] using ht
        exact hi
  upcoming i hi := h.upcoming i (List.mem_of_mem_tail (by simpa [Parser.moved] using hi))
  stop := h.stop

end Parser.Shows

theorem unscoped_shows {P : Range → Prop} : Unscoped (Parser.Shows P) fun e => P e.range where
  moved h _ := h.moved
  names _ h := { h with }
  place h _ := h.place
  fault h hnext := h.upcoming _ (List.mem_of_head? hnext)
  entered _ _ _ h := { h with }

namespace Buffer

variable {b : Buffer} {e : ParseError}

/-- At the start of a buffer, all ranges cover pieces of its text. -/
theorem shows_ofBuffer (b : Buffer) : (Parser.ofBuffer b).Shows b.Covers := by
  have hitems : ∀ i ∈ (Filter.ofItems Filter.trivia b.items).remaining, b.Covers i.range :=
    fun i hi =>
      b.covers_of_mem_items i (List.mem_filter.1 (Filter.remaining_ofItems _ _ ▸ hi)).1
  refine ⟨fun t ht => ?_, fun i hi => hitems i (List.mem_of_mem_tail ?_), b.covers_end⟩
  · cases hnext : (Filter.ofItems Filter.trivia b.items).remaining.head? with
    | none => simp [Parser.ofBuffer, hnext] at ht
    | some i =>
      have hi := hitems i (List.mem_of_head? hnext)
      cases i with
      | error e => simp [Parser.ofBuffer, hnext] at ht
      | ok u =>
        obtain rfl : u = t := by simpa [Parser.ofBuffer, hnext] using ht
        exact hi
  · simpa [Parser.ofBuffer] using hi

/-- A text that cannot be read has an error that covers a piece of it. -/
theorem covers_of_eval {α : Type} {act : Parse α}
    (hact : ∀ p, act.Keeps (Parser.Shows b.Covers) (fun e => b.Covers e.range) p)
    (h : (Parser.start b >>= Parse.eval act) = .error e) : b.Covers e.range := by
  have hrun := hact _ (shows_ofBuffer b)
  have hok : Parser.start b = .ok (Parser.ofBuffer b) → b.Covers e.range := by
    intro hstart
    simp only [hstart, Bind.bind, Except.bind, Parse.eval] at h
    split at h
    · cases h
    · rename_i e' q hfail
      obtain rfl : e' = e := by simpa using h
      rwa [hfail] at hrun
  have hstart := Parser.start_eq b
  cases hnext : (Filter.ofItems Filter.trivia b.items).remaining.head? with
  | none => exact hok (by rw [hstart, hnext])
  | some i =>
    cases i with
    | ok t => exact hok (by rw [hstart, hnext])
    | error e' =>
      obtain rfl : e'.toParseError = e := by simpa [hstart, hnext, Bind.bind, Except.bind] using h
      have hmem := List.mem_of_head? hnext
      rw [Filter.remaining_ofItems] at hmem
      exact b.covers_of_mem_items _ (List.mem_filter.1 hmem).1

theorem covers_of_script (h : b.script = .error e) : b.Covers e.range :=
  covers_of_eval (unscoped_shows.closed.script (c := .global)) h

theorem covers_of_program (h : b.program = .error e) : b.Covers e.range :=
  covers_of_eval (unscoped_shows.closed.program (c := .global)) h

end Buffer

end Rill
