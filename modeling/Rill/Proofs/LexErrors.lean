import Rill.Proofs.Extent
import Rill.Proofs.Filtering
import Rill.Proofs.Steady

/-!
# Lexical errors reach the reader

A parser looks one token ahead, so it meets a lexical fault while it moves on to it from the token
before, and after that the text looks as if it had ended. Still no fault is lost. As long as a
parser has not met it, the fault is ahead of it, behind tokens that start before it
(`Parser.Nears`). Every step of reading keeps this, or fails : with that very fault, or at a place
before it (`unscoped_nears`). And a text is read only to its end, where no fault is ahead.

`Buffer.lexErrors_reported` says this of programs and scripts.
-/

namespace Rill

/-! ## The fault of a text -/

theorem Tiles.le : ∀ {rs : List Range} {l l' : Location}, Tiles l rs l' → l ≤ l'
  | [], _, _, h => le_of_eq h
  | _ :: _, _, _, h => h.2.1.le.trans (le h.2.2)

/-- Ranges side by side start before the location at which they end. -/
theorem Tiles.start_lt :
    ∀ {rs : List Range} {l l' : Location}, Tiles l rs l' → ∀ r ∈ rs, r.start < l'
  | [], _, _, _ => by simp
  | r :: rs, l, l', h => by
    obtain ⟨rfl, hstop, hrest⟩ := h
    exact List.forall_mem_cons.2 ⟨hstop.trans_le hrest.le, hrest.start_lt⟩

theorem Item.collect_walkItems (ts : List Token) (error : Option LexError) :
    Item.collect (walkItems ts error) = error.elim (.ok ts) .error := by
  induction ts with
  | nil => cases error <;> rfl
  | cons t ts ih =>
    have hcons : Item.collect (walkItems (t :: ts) error) =
        (Item.collect (walkItems ts error)).map (t :: ·) := rfl
    rw [hcons, ih]
    cases error <;> rfl

namespace Buffer

variable {b : Buffer} {e : LexError} {ts : List Token}

/-- The fault of a text comes after all its tokens, which start before it. -/
theorem items_of_error (h : b.allTokens = .error e) :
    ∃ ts : List Token, b.items = ts.map .ok ++ [.error e] ∧
    ∀ t ∈ ts, t.range.start < e.range.start := by
  obtain ⟨ts, c', error, hwalk, hends, hitems⟩ := b.exists_walk_items
  rw [allTokens, hitems, Item.collect_walkItems] at h
  cases hends with
  | text => cases h
  | fault hscan =>
    cases h
    obtain ⟨htiles, -⟩ := (Cursor.at_start b).walk hwalk
    exact ⟨ts, hitems, fun t ht => htiles.start_lt t.range (List.mem_map_of_mem ht)⟩

theorem remaining_of_error (h : b.allTokens = .error e) :
    ∃ ts : List Token, (Filter.ofItems Filter.trivia b.items).remaining = ts.map .ok ++ [.error e] ∧
      ∀ t ∈ ts, t.range.start < e.range.start := by
  obtain ⟨ts, hitems, hbefore⟩ := items_of_error h
  refine ⟨ts.filter fun t => !Filter.leavesOut Filter.trivia (.ok t), ?_, fun t ht =>
    hbefore t (List.mem_filter.1 ht).1⟩
  rw [Filter.remaining_ofItems, hitems, List.filter_append, List.filter_map]
  rfl

/-- The tokens that carry meaning are those of the whole text without the others. -/
theorem allTokens_of_tokens (h : b.tokens = .ok ts) :
    ∃ all, b.allTokens = .ok all ∧ ts = all.filter fun t => !t.isTrivia := by
  rw [tokens_eq_map] at h
  cases hall : b.allTokens with
  | error e =>
    rw [hall] at h
    cases h
  | ok all =>
    rw [hall] at h
    exact ⟨all, rfl, (Except.ok.inj h).symm⟩

end Buffer

/-! ## Parsers with a fault ahead -/

/-- The error tells of the lexical error : it is that error, or it lies before it. -/
def ParseError.Reports (e : LexError) (error : ParseError) : Prop :=
  if error.fault.isLexical then error = e.toParseError else error.range.start < e.range.start

theorem ParseError.reports_self (e : LexError) : e.toParseError.Reports e := by
  have hlexical : e.toParseError.fault.isLexical = true := rfl
  rw [Reports, if_pos hlexical]

/-- The parser is at a token, and ahead are tokens and then the fault, all tokens before it. -/
structure Parser.Nears (e : LexError) (p : Parser) : Prop where
  current : ∃ t, p.current = some t ∧ t.range.start < e.range.start
  upcoming : ∃ ts : List Token, p.upcoming.remaining = ts.map .ok ++ [.error e] ∧
    ∀ t ∈ ts, t.range.start < e.range.start

/-- A parser at the end of the tokens has nothing ahead. -/
def Parser.EndsWhole (p : Parser) : Prop := p.current = none → p.upcoming.remaining = []

namespace Parser.Nears

variable {e e' : LexError} {p : Parser}

theorem moved (h : p.Nears e) (hnext : ∀ e, p.upcoming.remaining.head? ≠ some (.error e)) :
    p.moved.Nears e := by
  obtain ⟨ts, hremaining, hbefore⟩ := h.upcoming
  cases ts with
  | nil => exact absurd (by rw [hremaining]; rfl) (hnext e)
  | cons t ts =>
    rw [List.forall_mem_cons] at hbefore
    have htail : p.moved.upcoming.remaining = p.upcoming.remaining.tail := p.upcoming.remaining_next
    refine ⟨⟨t, ?_, hbefore.1⟩, ts, ?_, hbefore.2⟩
    · rw [Parser.moved, hremaining]
      rfl
    · rw [htail, hremaining]
      rfl

theorem place_lt (h : p.Nears e) : p.place.start < e.range.start := by
  obtain ⟨t, ht, hlt⟩ := h.current
  rwa [Parser.place, ht]

/-- The next fault is the one ahead. -/
theorem eq_of_next (h : p.Nears e) (hnext : p.upcoming.remaining.head? = some (.error e')) :
    e' = e := by
  obtain ⟨ts, hremaining, -⟩ := h.upcoming
  rw [hremaining] at hnext
  cases ts with
  | nil => exact (Except.error.inj (Option.some.inj hnext)).symm
  | cons t ts => cases Option.some.inj hnext

end Parser.Nears

/-- A step of reading keeps the fault ahead, or fails with it or before it. -/
theorem unscoped_nears (e : LexError) : Unscoped (Parser.Nears e) (ParseError.Reports e) where
  moved := Parser.Nears.moved
  names _ h := { h with }
  place h hfault := by
    rw [ParseError.Reports, hfault]
    exact h.place_lt
  fault h hnext := by
    obtain rfl := h.eq_of_next hnext
    exact ParseError.reports_self _
  entered _ _ _ h := { h with }

theorem unscoped_endsWhole : Unscoped Parser.EndsWhole fun _ => True where
  moved {p} _ hnext hnone := by
    have htail : p.moved.upcoming.remaining = p.upcoming.remaining.tail := p.upcoming.remaining_next
    rw [htail]
    cases hremaining : p.upcoming.remaining with
    | nil => rfl
    | cons i rest =>
      cases i with
      | ok t => simp [Parser.moved, hremaining] at hnone
      | error e => exact absurd (by rw [hremaining]; rfl) (hnext e)
  names _ h := h
  place _ _ := trivial
  fault _ _ := trivial
  entered _ _ _ h := h

/-! ## Texts -/

namespace Buffer

variable {α : Type} {b : Buffer} {e : LexError} {act : Parse α}

theorem nears_ofBuffer (h : b.allTokens = .error e) :
    Parser.start b = .error e.toParseError ∨
      Parser.start b = .ok (.ofBuffer b) ∧ (Parser.ofBuffer b).Nears e := by
  obtain ⟨ts, hremaining, hbefore⟩ := remaining_of_error h
  rw [Parser.start_eq, hremaining]
  cases ts with
  | nil => exact .inl rfl
  | cons t ts =>
    rw [List.forall_mem_cons] at hbefore
    have htail := (Filter.ofItems Filter.trivia b.items).remaining_next
    refine .inr ⟨rfl, ⟨t, ?_, hbefore.1⟩, ts, ?_, hbefore.2⟩
    · rw [Parser.ofBuffer, hremaining]
      rfl
    · exact htail.trans (by rw [hremaining]; rfl)

theorem endsWhole_ofBuffer (hstart : Parser.start b = .ok (.ofBuffer b)) :
    (Parser.ofBuffer b).EndsWhole := by
  intro hnone
  have htail : (Parser.ofBuffer b).upcoming.remaining = _ :=
    (Filter.ofItems Filter.trivia b.items).remaining_next
  rw [Parser.start_eq] at hstart
  rw [htail]
  cases hremaining : (Filter.ofItems Filter.trivia b.items).remaining with
  | nil => rfl
  | cons i rest =>
    cases i with
    | ok t => simp [Parser.ofBuffer, hremaining] at hnone
    | error e => simp [hremaining] at hstart

/-- Reading a text with a fault to its end fails, with the fault or before it. -/
theorem exists_reports (hkeeps : ∀ p, act.Keeps (Parser.Nears e) (ParseError.Reports e) p)
    (hends : ∀ p a q, act p = .ok a q → q.isEmpty) (h : b.allTokens = .error e) :
    ∃ error, (Parser.start b >>= Parse.eval act) = .error error ∧ error.Reports e := by
  rcases nears_ofBuffer h with hstart | ⟨hstart, hnears⟩
  · exact ⟨e.toParseError, by rw [hstart]; rfl, ParseError.reports_self e⟩
  · have hrun := hkeeps _ hnears
    have heval : (Parser.start b >>= Parse.eval act) = Parse.eval act (.ofBuffer b) := by
      rw [hstart]; rfl
    rw [heval, Parse.eval]
    cases hact : act (.ofBuffer b) with
    | ok a q =>
      rw [hact] at hrun
      obtain ⟨t, ht, -⟩ := hrun.current
      have hempty := hends _ a q hact
      rw [Parser.isEmpty, ht] at hempty
      cases hempty
    | error error q =>
      rw [hact] at hrun
      exact ⟨error, rfl, hrun⟩

/-- What is read of a text was read from all its tokens : the whole text is cut into tokens, those
that carry meaning lay ahead of the parser when it started, and nothing does when it is done. -/
def ReadsWhole (b : Buffer) (act : Parse α) (a : α) : Prop :=
  ∃ all p q, b.allTokens = .ok all ∧ Parser.start b = .ok p ∧
    p.Reads (all.filter fun t => !t.isTrivia) ∧
    act p = .ok a q ∧ q.current = none ∧ q.upcoming.remaining = []

theorem readsWhole {post : α → List Token → Prop} {a : α}
    (hkeeps : ∀ p, act.Keeps Parser.EndsWhole (fun _ => True) p)
    (htakes : ∀ p, act.Takes p fun a ts q => post a ts ∧ q.isEmpty)
    (h : (Parser.start b >>= Parse.eval act) = .ok a) : b.ReadsWhole act a := by
  obtain ⟨ts, htokens, -⟩ := tokens_of_eval htakes h
  obtain ⟨all, hall, rfl⟩ := allTokens_of_tokens htokens
  obtain ⟨q, hstart, hact⟩ := ok_of_eval h
  obtain ⟨_, -, -, hempty⟩ := htakes _ a q hact
  have hnone : q.current = none := Option.isNone_iff_eq_none.1 hempty
  have hreads : (Parser.ofBuffer b).Reads (all.filter fun t => !t.isTrivia) :=
    (Parser.ahead_of_start hstart).trans (tokens_eq_ok.1 htokens)
  exact ⟨all, _, q, hall, hstart, hreads, hact, hnone,
    (hkeeps _).ok (endsWhole_ofBuffer hstart) hact hnone⟩

end Buffer

/-- Lexical errors are neither swallowed nor misreported. A text that cannot be cut into tokens is
neither a program nor a script, and the error is that lexical error or one at a place before it.
What is read, as a program or as a script, is read from all tokens of the whole text. -/
theorem Buffer.lexErrors_reported (b : Buffer) :
    (∀ e, b.allTokens = .error e →
      (∃ error, b.program = .error error ∧ error.Reports e) ∧
        ∃ error, b.script = .error error ∧ error.Reports e) ∧
    (∀ u, b.program = .ok u → b.ReadsWhole (Parse.program .standard) u) ∧
    ∀ s, b.script = .ok s → b.ReadsWhole (Parse.script .standard) s := by
  refine ⟨fun e h => ⟨?_, ?_⟩, fun u h => ?_, fun s h => ?_⟩
  · have hkeeps := (unscoped_nears e).closed.program (c := .global)
    refine exists_reports hkeeps (fun p u q hrun => ?_) h
    obtain ⟨_, -, -, hempty⟩ := Parse.takes_program p u q hrun
    exact hempty
  · have hkeeps := (unscoped_nears e).closed.script (c := .global)
    refine exists_reports hkeeps (fun p s q hrun => ?_) h
    obtain ⟨_, -, -, hempty⟩ := Parse.takes_script p s q hrun
    exact hempty
  · exact readsWhole (unscoped_endsWhole.closed.program (c := .global)) Parse.takes_program h
  · exact readsWhole (unscoped_endsWhole.closed.script (c := .global)) Parse.takes_script h

/-- A text whose fault ends a declaration, one that is refused before its fault, and one
without a fault. -/
theorem Buffer.lexErrors_reported_around :
    let late : LexError := ⟨.unrecognized '@', ⟨1, 9⟩, ⟨1, 10⟩⟩
    ((anonymous "var x = @").allTokens = .error late ∧
      ∃ error, (anonymous "var x = @").program = .error error ∧ error.Reports late) ∧
    ((anonymous "var = x @").allTokens = .error late ∧
      ∃ error, (anonymous "var = x @").script = .error error ∧ error.Reports late) ∧
    ∃ u s, ((anonymous "var x = 1;").program = .ok u ∧
        (anonymous "var x = 1;").ReadsWhole (Parse.program .standard) u) ∧
      (anonymous "var x = 1;").script = .ok s ∧
        (anonymous "var x = 1;").ReadsWhole (Parse.script .standard) s := by
  intro late
  have hfault : (anonymous "var x = @").allTokens = .error late := by decide +kernel
  have hrefused : (anonymous "var = x @").allTokens = .error late := by decide +kernel
  have hprogram : (anonymous "var x = 1;").program.toOption.isSome := by decide +kernel
  have hscript : (anonymous "var x = 1;").script.toOption.isSome := by decide +kernel
  refine ⟨⟨hfault, ((lexErrors_reported _).1 late hfault).1⟩,
    ⟨hrefused, ((lexErrors_reported _).1 late hrefused).2⟩, ?_⟩
  cases hu : (anonymous "var x = 1;").program with
  | error e =>
    rw [hu] at hprogram
    cases hprogram
  | ok u =>
    cases hs : (anonymous "var x = 1;").script with
    | error e =>
      rw [hs] at hscript
      cases hscript
    | ok s =>
      exact ⟨u, s, ⟨rfl, (lexErrors_reported _).2.1 u hu⟩, rfl, (lexErrors_reported _).2.2 s hs⟩

end Rill
