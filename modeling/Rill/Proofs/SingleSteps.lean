import Rill.Proofs.Operations

/-!
# Steps that take one token or none

The smallest steps of parsing look at the current token, and take it if it is the one they are for.
They are atomic : a step that does not find its token changes nothing, and one that does takes
exactly that token. Taking a token fetches the item after it, though, and that item may be a lexical
fault. Then the step fails with the fault, and the parser has its current token and all else as
before, but nothing is left behind the token (`Parser.CutOff`).

`Parse.Handled` lists what can come of such a step, and there is one lemma for each of them. What
they leave is then read off the list once (`Parse.Handled.atomic`). That nothing is left behind a
fault holds of the parsers of a text (`Parser.ReadsFrom`), whatever their other parts are, because a
fault is the last item of a text.
-/

namespace Rill

/-! ## Faults come last -/

/-- A fault is the last item of a walk. -/
theorem pairwise_walkItems (ts : List Token) (error : Option LexError) :
    (walkItems ts error).Pairwise fun i _ => i.isOk = true := by
  refine List.pairwise_append.2 ⟨?_, ?_, ?_⟩
  · exact List.pairwise_map.2 (List.pairwise_of_forall fun _ _ => rfl)
  · cases error with
    | none => exact .nil
    | some e => exact List.pairwise_singleton _ _
  · intro i hi _ _
    obtain ⟨t, -, rfl⟩ := List.mem_map.1 hi
    rfl

/-- Only the last item of a text may be a fault. -/
theorem Buffer.pairwise_items (b : Buffer) : b.items.Pairwise fun i _ => i.isOk = true := by
  obtain ⟨ts, _, error, -, -, hitems⟩ := b.exists_walk_items
  rw [hitems]
  exact pairwise_walkItems ts error

namespace Filter

/-- The filters that are left when items of a text are taken. -/
inductive Drawn (b : Buffer) : Filter → Prop
  | start : Drawn b (ofItems trivia b.items)
  | next {f : Filter} (h : Drawn b f) : Drawn b f.next.2

variable {b : Buffer} {f : Filter}

/-- A fault is the last item of a filter, however much was taken. -/
theorem Drawn.pairwise (h : f.Drawn b) : f.remaining.Pairwise fun i _ => i.isOk = true := by
  induction h with
  | start =>
    rw [remaining_ofItems]
    exact b.pairwise_items.sublist List.filter_sublist
  | @next f _ ih =>
    rw [f.remaining_next]
    exact ih.sublist (List.tail_sublist _)

/-- If a fault comes next, nothing comes after it. -/
theorem Drawn.remaining_of_fault (h : f.Drawn b) {e : LexError}
    (hnext : f.remaining.head? = some (.error e)) :
    f.remaining = [.error e] := by
  obtain ⟨rest, hrest⟩ := List.head?_eq_some_iff.1 hnext
  have hpairwise := h.pairwise
  rw [hrest, List.pairwise_cons] at hpairwise
  have hnil : rest = [] := List.eq_nil_iff_forall_not_mem.2 fun i hi => by cases hpairwise.1 i hi
  rw [hrest, hnil]

theorem next_of_remaining (h : f.remaining = []) : f.next.2 = f := by
  cases hpending : f.pending with
  | none => simp only [next, hpending]
  | some i => simp [remaining, hpending] at h

end Filter

/-! ## The parsers of a text -/

namespace Parser

/-- The parser reads the tokens of a text, after some of them were taken. Nothing is said
of what else it holds. -/
structure ReadsFrom (b : Buffer) (p : Parser) : Prop where
  upcoming : p.upcoming.Drawn b
  sourceEnd : b.location? b.size = some p.sourceEnd

/-- The parser `q` is `p` with its current token `t` taken. -/
structure Took (t : Token) (p q : Parser) : Prop where
  current : p.current = some t
  ahead : p.ahead = .ok t :: q.ahead
  previousEnd : q.previousEnd = t.range.stop
  scope : q.scope = p.scope
  scopes : q.scopes = p.scopes
  nextDecl : q.nextDecl = p.nextDecl
  sourceEnd : q.sourceEnd = p.sourceEnd

/-- The parser `q` is `p` with all that was behind its current token `t` lost : it still has this
token, and when that is taken, it is at the end of the text. -/
structure CutOff (b : Buffer) (t : Token) (p q : Parser) : Prop where
  current : p.current = some t
  kept : q = { p with upcoming := q.upcoming }
  ahead : q.ahead = [.ok t]
  exhausted : q.upcoming.remaining = []
  ends : ∃ r stop, Parse.advance q = .ok (some t) r ∧ r.current = none ∧
    Parse.advance r = .ok none r ∧
    b.location? b.size = some stop ∧ r.place = ⟨stop, stop⟩

variable {b : Buffer} {p : Parser} {t : Token}

/-- A token is taken if no fault comes next. -/
theorem took_moved (hc : p.current = some t)
    (hnext : ∀ e, p.upcoming.remaining.head? ≠ some (.error e)) (names : NameTable) :
    p.Took t { p.moved with names := names } where
  current := hc
  ahead := by
    have hp := ahead_of_current hc
    have hmoved : p.moved.ahead = p.upcoming.remaining :=
      ahead_moved hp fun e rest hrest => hnext e (by rw [hrest]; rfl)
    exact hp.trans (congrArg _ hmoved.symm)
  previousEnd := by simp only [moved, hc]
  scope := rfl
  scopes := rfl
  nextDecl := rfl
  sourceEnd := rfl

/-- At the end of the text, moving on changes nothing. -/
theorem moved_ended (hc : p.current = none) (hnone : p.upcoming.remaining = []) : p.moved = p := by
  obtain ⟨current, upcoming, previousEnd, sourceEnd, names, scopes, scope, nextDecl⟩ := p
  simp only at hc hnone
  subst hc
  simp only [moved, hnone, Filter.next_of_remaining hnone]
  rfl

/-- A fault that comes next is taken, and the current token stays. -/
theorem cutOff_fault (h : p.ReadsFrom b) (hc : p.current = some t) {e : LexError}
    (hnext : p.upcoming.remaining.head? = some (.error e)) :
    p.CutOff b t { p with upcoming := p.upcoming.next.2 } := by
  have hnone : p.upcoming.next.2.remaining = [] := by
    rw [p.upcoming.remaining_next, h.upcoming.remaining_of_fault hnext]
    rfl
  obtain ⟨q, hq, hexhausted⟩ : ∃ q : Parser,
      q = { p with upcoming := p.upcoming.next.2 } ∧ q.upcoming.remaining = [] := ⟨_, rfl, hnone⟩
  have hcurrent : q.current = some t := by rw [hq, hc]
  have hend : q.moved.current = none := by
    rw [moved, hexhausted]
    rfl
  have hrest : q.moved.upcoming.remaining = [] := by
    rw [moved, Filter.next_of_remaining hexhausted, hexhausted]
  have htake : Parse.advance q = .ok (some t) q.moved := by
    rw [Parse.advance_eq, hexhausted, hcurrent]
    rfl
  have hstay : Parse.advance q.moved = .ok none q.moved := by
    rw [Parse.advance_eq, hrest, hend, moved_ended hend hrest]
    rfl
  rw [← hq]
  refine ⟨hc, by rw [hq], ?_, hexhausted, q.moved, p.sourceEnd, htake, hend, hstay, h.sourceEnd, ?_⟩
  · rw [ahead_of_current hcurrent, hexhausted]
  · rw [place, hend]
    have hsource : q.moved.sourceEnd = p.sourceEnd := by rw [hq]; rfl
    rw [hsource]

/-- A parser that has taken a token has changed. -/
theorem Took.ne {q : Parser} (h : p.Took t q) : q ≠ p := by
  rintro rfl
  have hlength := congrArg List.length h.ahead
  simp at hlength

/-- A parser that has met a fault has changed, since the fault is gone. -/
theorem CutOff.ne {q : Parser} (h : p.CutOff b t q) {e : LexError}
    (hnext : p.upcoming.remaining.head? = some (.error e)) : q ≠ p := by
  rintro rfl
  rw [h.exhausted] at hnext
  cases hnext

/-- Whether a type annotation starts at the current token. -/
def startsType (p : Parser) : Bool :=
  match p.current with
  | some ⟨.keyword (.type _), _⟩ => true
  | some ⟨.identifier _, _⟩ => p.identifierFollows
  | _ => false

end Parser

/-! ## What can come of a step -/

namespace Parse

variable {α β : Type} {p : Parser} {wanted : Bool} {takes : α → Bool}

/-- What can come of a step on a parser, by whether the token that it is for is there. `takes` tells
of a success whether a token was taken. -/
inductive Handled (p : Parser) (wanted : Bool) (takes : α → Bool) :
    EStateM.Result ParseError Parser α → Prop
  | kept {a : α} (hwanted : wanted = false) (ha : takes a = false) :
      Handled p wanted takes (.ok a p)
  | refused (hwanted : wanted = false) (what : String) :
      Handled p wanted takes (.error (p.expected what) p)
  | taken {t : Token} {a : α} (hwanted : wanted = true) (hc : p.current = some t)
      (hnext : ∀ e, p.upcoming.remaining.head? ≠ some (.error e)) (names : NameTable)
      (ha : takes a = true) :
      Handled p wanted takes (.ok a { p.moved with names := names })
  | cut {t : Token} {e : LexError} (hwanted : wanted = true) (hc : p.current = some t)
      (hnext : p.upcoming.remaining.head? = some (.error e)) :
      Handled p wanted takes (.error e.toParseError { p with upcoming := p.upcoming.next.2 })

/-- Without a fault ahead a parser moves on. -/
theorem advance_of_ok (hnext : ∀ e, p.upcoming.remaining.head? ≠ some (.error e)) :
    advance p = .ok p.current p.moved := by
  rw [advance_eq]
  split
  next e he => exact absurd he (hnext e)
  next => rfl

/-- With a fault ahead a parser fails with it and keeps its current token. -/
theorem advance_of_fault {e : LexError} (hnext : p.upcoming.remaining.head? = some (.error e)) :
    advance p = .error e.toParseError { p with upcoming := p.upcoming.next.2 } := by
  rw [advance_eq, hnext]

/-- A step that takes the current token and then does not fail. -/
theorem handled_advance {t : Token} {f : Option Token → Parse α} {a : α}
    (names : NameTable → NameTable) (hc : p.current = some t)
    (hf : ∀ q : Parser, f (some t) q = .ok a { q with names := names q.names })
    (ha : takes a = true) : Handled p true takes ((advance >>= f) p) := by
  simp only [Bind.bind, EStateM.bind]
  by_cases hfault : ∃ e, p.upcoming.remaining.head? = some (.error e)
  · obtain ⟨e, hnext⟩ := hfault
    rw [advance_of_fault hnext]
    exact .cut rfl hc hnext
  · have hnext : ∀ e, p.upcoming.remaining.head? ≠ some (.error e) := fun e he => hfault ⟨e, he⟩
    simp only [advance_of_ok hnext, hc, hf]
    exact .taken rfl hc hnext _ ha

/-- A step that wraps the result of another does to the parser what that one does. -/
theorem Handled.bind_pure {act : Parse α} {g : α → β} {takes' : β → Bool}
    (h : Handled p wanted takes (act p)) (hg : ∀ a, takes' (g a) = takes a) :
    Handled p wanted takes' ((act >>= fun a => pure (g a)) p) := by
  simp only [Bind.bind, EStateM.bind]
  cases hrun : act p with
  | ok a q =>
    rw [hrun] at h
    cases h with
    | kept hwanted ha => exact .kept hwanted ((hg a).trans ha)
    | taken hwanted hc hnext names ha => exact .taken hwanted hc hnext names ((hg a).trans ha)
  | error e q =>
    rw [hrun] at h
    cases h with
    | refused hwanted what => exact .refused hwanted what
    | cut hwanted hc hnext => exact .cut hwanted hc hnext

/-! ## Steps -/

theorem bind_congr {act other : Parse α} (f : α → Parse β) (h : act p = other p) :
    (act >>= f) p = (other >>= f) p := by
  simp only [Bind.bind, EStateM.bind, h]

/-- A mark is taken if it is there. -/
theorem handled_accept (text : String) (p : Parser) :
    Handled p (p.isPunctuation text) id (accept text p) := by
  have hrun : accept text p =
      (if p.isPunctuation text then advance >>= fun _ => pure true
        else pure false : Parse Bool) p := rfl
  rw [hrun]
  cases h : p.isPunctuation text with
  | false => exact .kept rfl rfl
  | true =>
    obtain ⟨t, hc, -⟩ := (Option.any_eq_true _ _).1 h
    exact handled_advance id hc (fun _ => rfl) rfl

/-- A required token is taken if it passes the test and refused otherwise. -/
theorem handled_require (test : Token → Bool) (what : String) (p : Parser) :
    Handled p (p.current.any test) (fun _ => true) (require test what p) := by
  have htake : takeIf test p =
      (if p.current.any test then advance else pure none : Parse (Option Token)) p := rfl
  cases h : p.current.any test with
  | false =>
    rw [h] at htake
    have hrun : require test what p = failExpected what p := bind_congr _ htake
    rw [hrun]
    exact .refused rfl what
  | true =>
    rw [h] at htake
    have hrun : require test what p = (advance >>= _) p := bind_congr _ htake
    rw [hrun]
    obtain ⟨t, hc, -⟩ := (Option.any_eq_true _ _).1 h
    exact handled_advance id hc (fun _ => rfl) rfl

theorem checkIdentifier_eq (p : Parser) :
    checkIdentifier p =
      (if p.isKind .identifier then pure ⟨⟩ else failExpected "identifier" : Parse PUnit) p := rfl

/-- To check for an identifier takes nothing, whatever comes of it. -/
theorem handled_checkIdentifier (p : Parser) :
    Handled p false (fun _ => false) (checkIdentifier p) := by
  rw [checkIdentifier_eq]
  cases p.isKind .identifier with
  | false => exact .refused rfl _
  | true => exact .kept rfl rfl

/-- An identifier is taken if it is there and refused otherwise. -/
theorem handled_identifier (p : Parser) :
    Handled p (p.isKind .identifier) (fun _ => true) (identifier p) := by
  have hcheck := checkIdentifier_eq p
  cases h : p.isKind .identifier with
  | false =>
    rw [h] at hcheck
    have hrun : identifier p = failExpected "identifier" p := bind_congr _ hcheck
    rw [hrun]
    exact .refused rfl _
  | true =>
    rw [h] at hcheck
    have hrun : identifier p = (advance >>= _) p := bind_congr _ hcheck
    rw [hrun]
    obtain ⟨t, hc, -⟩ := (Option.any_eq_true _ _).1 h
    exact handled_advance (·.insert t.lexeme.text) hc (fun _ => rfl) rfl

theorem Handled.get {f : Parser → Parse α} (h : Handled p wanted takes (f p p)) :
    Handled p wanted takes ((MonadState.get >>= f) p) := h

/-- A type is taken if one starts at the current token. -/
theorem handled_typeRef? (p : Parser) : Handled p p.startsType Option.isSome (typeRef? p) := by
  unfold typeRef? Parser.startsType
  refine Handled.get ?_
  cases hc : p.current with
  | none => exact .kept rfl rfl
  | some t =>
    obtain ⟨lexeme, range⟩ := t
    cases lexeme with
    | keyword word =>
      cases word with
      | type t => exact handled_advance id hc (fun _ => rfl) rfl
      | _ => exact .kept rfl rfl
    | identifier name =>
      simp only
      cases p.identifierFollows with
      | false => exact .kept rfl rfl
      | true =>
        have hident := handled_identifier p
        have hkind : p.isKind .identifier = true := by
          simp [Parser.isKind, hc, Token.kind, Lexeme.kind]
        rw [hkind] at hident
        exact hident.bind_pure fun _ => rfl
    | _ => exact .kept rfl rfl

/-! ## What steps leave -/

/-- A step that takes one token or none. `wanted` says whether the token that it is for is there,
and `takes` tells of a success whether a token was taken.

The parser is left as it is by a success that takes nothing and by the failure that something else
was expected. A lexical fault behind the current token cuts the parser off there, and there is no
other failure. A success that takes something takes the current token. So the parser changes if and
only if the token is there. -/
structure Atomic (act : Parse α) (wanted : Bool) (takes : α → Bool) (b : Buffer) (p : Parser) :
    Prop where
  kept : ∀ a q, act p = .ok a q → takes a = false → q = p
  taken : ∀ a q, act p = .ok a q → takes a = true → ∃ t, p.Took t q
  refused : ∀ what found range q, act p = .error ⟨.expected what found, range⟩ q → q = p
  cut : ∀ fault range q, act p = .error ⟨.lexical fault, range⟩ q →
    p.upcoming.peek = some (.error ⟨fault, range⟩) ∧ ∃ t, p.CutOff b t q
  failed : ∀ e q, act p = .error e q → e.fault.isLexical = true ∨ ∃ what, e = p.expected what
  changed_iff : act.after p ≠ p ↔ wanted = true

section

variable {b : Buffer} {act : Parse α} {q : Parser}

theorem Atomic.of_ok {a : α} (hrun : act p = .ok a q) (hkept : takes a = false → q = p)
    (htaken : takes a = true → ∃ t, p.Took t q) (hchanged : q ≠ p ↔ wanted = true) :
    act.Atomic wanted takes b p where
  kept _ _ h ha := by
    cases hrun.symm.trans h
    exact hkept ha
  taken _ _ h ha := by
    cases hrun.symm.trans h
    exact htaken ha
  refused _ _ _ _ h := by cases hrun.symm.trans h
  cut _ _ _ h := by cases hrun.symm.trans h
  failed _ _ h := by cases hrun.symm.trans h
  changed_iff := by rw [after_ok hrun, hchanged]

/-- A step that is refused leaves the parser as it is. -/
theorem Atomic.of_refused {what : String} (hrun : act p = .error (p.expected what) p)
    (hwanted : wanted = false) :
    act.Atomic wanted takes b p where
  kept _ _ h _ := by cases hrun.symm.trans h
  taken _ _ h _ := by cases hrun.symm.trans h
  refused _ _ _ _ h := by
    cases hrun.symm.trans h
    rfl
  cut _ _ _ h := by cases hrun.symm.trans h
  failed _ _ h := by
    cases hrun.symm.trans h
    exact .inr ⟨what, rfl⟩
  changed_iff := by simp [after_error hrun, hwanted]

/-- A step that meets a fault has the token it is for and leaves it. -/
theorem Atomic.of_cut {t : Token} {e : LexError} (hrun : act p = .error e.toParseError q)
    (hnext : p.upcoming.remaining.head? = some (.error e)) (hcut : p.CutOff b t q)
    (hwanted : wanted = true) :
    act.Atomic wanted takes b p where
  kept _ _ h _ := by cases hrun.symm.trans h
  taken _ _ h _ := by cases hrun.symm.trans h
  refused _ _ _ _ h := by cases hrun.symm.trans h
  cut _ _ _ h := by
    cases hrun.symm.trans h
    exact ⟨(Filter.peek_eq _).trans hnext, t, hcut⟩
  failed _ _ h := by
    cases hrun.symm.trans h
    exact .inl rfl
  changed_iff := by simp [after_error hrun, hwanted, hcut.ne hnext]

/-- What can come of a step makes it take one token or none. -/
theorem Handled.atomic (hp : p.ReadsFrom b) (h : Handled p wanted takes (act p)) :
    act.Atomic wanted takes b p := by
  generalize hrun : act p = r at h
  cases h with
  | kept hwanted ha => exact .of_ok hrun (fun _ => rfl) (by simp [ha]) (by simp [hwanted])
  | refused hwanted what => exact .of_refused hrun hwanted
  | taken hwanted hc hnext names ha =>
    have htook := Parser.took_moved hc hnext names
    exact .of_ok hrun (by simp [ha]) (fun _ => ⟨_, htook⟩) (by simp [hwanted, htook.ne])
  | cut hwanted hc hnext => exact .of_cut hrun hnext (Parser.cutOff_fault hp hc hnext) hwanted

end

/-! ## Parsers that are reached -/

/-- Moves keep a parser within the tokens of its text. -/
theorem MadeIn.readsFrom {c : ScopeId} {act : Parse α} (h : MadeIn c act) {b : Buffer} :
    ∀ {p : Parser}, p.ReadsFrom b → (act.after p).ReadsFrom b := by
  induction h with
  | pure | fail | get | name | declare => exact fun hp => { hp with }
  | @bind c α β act f _ _ ih ihf =>
    intro p hp
    have hact := ih hp
    cases hrun : act p with
    | ok a q =>
      rw [after_ok hrun] at hact
      rw [after_bind_ok hrun]
      exact ihf a hact
    | error e q =>
      rw [after_error hrun] at hact
      rw [after_bind_error hrun]
      exact hact
  | attempt _ ih =>
    intro p hp
    rw [after_attempt]
    exact ih hp
  | advance =>
    intro p hp
    by_cases hfault : ∃ e, p.upcoming.remaining.head? = some (.error e)
    · obtain ⟨e, hnext⟩ := hfault
      rw [after_error (advance_of_fault hnext)]
      exact ⟨.next hp.upcoming, hp.sourceEnd⟩
    · rw [after_ok (advance_of_ok fun e he => hfault ⟨e, he⟩)]
      exact ⟨.next hp.upcoming, hp.sourceEnd⟩
  | @within c α act _ ih =>
    intro p hp
    rw [after_within]
    have hact : (act.after { p with scope := c }).ReadsFrom b := ih { hp with }
    exact { hact with }
  | opening kind owner _ ih =>
    intro p hp
    rw [after_opening]
    have hact := ih ⟨p.scopes.size⟩
      (p := { p with scopes := (p.scopes.push kind p.scope owner).2, scope := ⟨p.scopes.size⟩ })
      { hp with }
    exact { hact with }

end Parse

theorem Buffer.location?_size (b : Buffer) :
    b.location? b.size = some (Location.past .origin b.chars []) :=
  location?_byteLength (List.append_nil _).symm

/-- Operations lead from the start of a text only to parsers of the text. -/
theorem Parser.Reached.readsFrom {b : Buffer} {p : Parser} (h : p.Reached b) : p.ReadsFrom b := by
  induction h with
  | start hstart =>
    obtain rfl := eq_ofBuffer_of_start hstart
    refine ⟨.next .start, ?_⟩
    rw [ofBuffer, b.location?_size]
    rfl
  | operation _ hact ih => exact (hact.made .global).readsFrom ih

/-- The steps that take one token or none are atomic on every parser of a text. -/
theorem Parse.helpers_atomic {b : Buffer} {p : Parser} (hp : p.ReadsFrom b) :
    (∀ text, (accept text).Atomic (p.isPunctuation text) id b p) ∧
    (∀ text, (punctuation text).Atomic (p.isPunctuation text) (fun _ => true) b p) ∧
    (∀ text, (word text).Atomic (p.isIdentifier text) (fun _ => true) b p) ∧
    checkIdentifier.Atomic false (fun _ => false) b p ∧
    identifier.Atomic (p.isKind .identifier) (fun _ => true) b p ∧
    typeRef?.Atomic p.startsType Option.isSome b p :=
  ⟨fun text => (handled_accept text p).atomic hp, fun _ => (handled_require _ _ p).atomic hp,
    fun _ => (handled_require _ _ p).atomic hp, (handled_checkIdentifier p).atomic hp,
    (handled_identifier p).atomic hp, (handled_typeRef? p).atomic hp⟩

/-- In this text the type is there, but the item after it is a fault. -/
theorem Parse.helpers_atomic_before_fault :
    ∃ fault range q, typeRef? (.ofBuffer (.anonymous "int @")) = .error ⟨.lexical fault, range⟩ q ∧
      ∃ t, (Parser.ofBuffer (.anonymous "int @")).CutOff (.anonymous "int @") t q := by
  have hp : (Parser.ofBuffer (.anonymous "int @")).ReadsFrom (.anonymous "int @") :=
    Parser.Reached.readsFrom (.start rfl)
  obtain ⟨-, -, -, -, -, htype⟩ := helpers_atomic hp
  exact ⟨_, _, _, rfl, (htype.cut _ _ _ rfl).2⟩

end Rill
