import Rill.Grammar.Parser

/-!
# What lies ahead of a parser

`Filter.remaining` lists the items that a filter still gives, and `Parser.ahead` those that a parser
has not taken yet, the current token first. Every step of parsing is described by what it takes from
the front of that list : `act.Takes p post` says that a success of `act` on `p` takes some tokens
`ts` and leaves a parser `q`, with `p.ahead = ts ++ q.ahead`, and that `post` holds of the result,
of `ts` and of `q`. Steps are composed by `Takes.bind`; the lemmas below describe the steps from
which all others are made.

Only `current` and `upcoming` matter for `ahead`, so entering names and scopes takes nothing.
-/

namespace Rill

namespace Filter

/-- The items that a filter still gives. -/
def remaining (f : Filter) : List Item :=
  match f.pending with
  | none => []
  | some item => item :: f.source.filter fun i => !leavesOut f.skip i

/-- A filter over items gives those that it does not leave out. -/
theorem remaining_ofItems (skip : List TokenKind) :
    ∀ source, (ofItems skip source).remaining = source.filter fun i => !leavesOut skip i
  | [] => rfl
  | item :: rest => by
    by_cases h : leavesOut skip item
    · have ih := remaining_ofItems skip rest
      simpa [ofItems, pull, h] using ih
    · simp [ofItems, pull, h, remaining]

/-- The next item of a filter is the first that remains. -/
@[simp]
theorem next_fst (f : Filter) : f.next.1 = f.remaining.head? := by
  cases h : f.pending <;> simp [next, remaining, h]

/-- After the next item the others remain. -/
@[simp]
theorem remaining_next (f : Filter) : f.next.2.remaining = f.remaining.tail := by
  cases h : f.pending with
  | none => simp [next, remaining, h]
  | some item =>
    have hsource := remaining_ofItems f.skip f.source
    simp only [next, h, hsource]
    simp [remaining, h]

theorem peek_eq (f : Filter) : f.peek = f.remaining.head? := by
  cases h : f.pending <;> simp [peek, remaining, h]

theorem length_remaining_le (f : Filter) : f.remaining.length ≤ f.source.length + 1 := by
  cases h : f.pending with
  | none => simp [remaining, h]
  | some item => simpa [remaining, h] using List.length_filter_le _ f.source

/-- The first `n` items of a filter are the first `n` that remain. -/
theorem take_eq : ∀ (n : Nat) (f : Filter), f.take n = f.remaining.take n
  | 0, _ => by simp [take]
  | n + 1, f => by
    have hfst := f.next_fst
    have hsnd := f.remaining_next
    cases hr : f.remaining with
    | nil =>
      rw [hr] at hfst
      rw [take]
      split
      · simp
      · simp_all
    | cons item rest =>
      rw [hr] at hfst hsnd
      rw [take]
      split
      · simp_all
      · rename_i found f' hnext
        rw [hnext] at hfst hsnd
        simp only [List.head?_cons, Option.some.injEq] at hfst
        rw [take_eq n f', hsnd, hfst, List.tail_cons, List.take_succ_cons]

/-- Read to its end, a filter gives all that remains. -/
theorem toList_eq (f : Filter) : f.toList = f.remaining := by
  rw [toList, take_eq, List.take_of_length_le f.length_remaining_le]

end Filter

namespace Parser

/-- The items that a parser has not taken yet. -/
def ahead (p : Parser) : List Item :=
  match p.current with
  | none => []
  | some t => .ok t :: p.upcoming.remaining

/-- The parser after its current token, if no fault follows that token. -/
def moved (p : Parser) : Parser :=
  { p with
    current := match p.upcoming.remaining.head? with
      | some (.ok t) => some t
      | _ => none
    upcoming := p.upcoming.next.2
    previousEnd := match p.current with
      | some t => t.range.stop
      | none => p.previousEnd }

/-- At a token, the token lies ahead and after it what the filter still gives. -/
theorem ahead_of_current {p : Parser} {t : Token} (h : p.current = some t) :
    p.ahead = .ok t :: p.upcoming.remaining := by
  simp [ahead, h]

/-- A token that lies ahead is the current one. -/
theorem current_of_ahead {p : Parser} {t : Token} {items : List Item}
    (h : p.ahead = .ok t :: items) :
    p.current = some t := by
  unfold ahead at h
  split at h
  · simp at h
  · simp_all

theorem current_eq_none_of_ahead {p : Parser} (h : p.ahead = []) : p.current = none := by
  unfold ahead at h
  split at h
  · assumption
  · simp at h

/-- The steps of a parser are enough for three at each item ahead and four more. -/
theorem length_ahead_le (p : Parser) : 3 * p.ahead.length + 4 ≤ p.fuel := by
  have h := p.upcoming.length_remaining_le
  unfold ahead fuel
  split
  · simp only [List.length_nil]
    omega
  · simp only [List.length_cons]
    omega

/-- Without a fault next, moving on drops the current token from what lies ahead. -/
theorem ahead_moved {p : Parser} {t : Token} {items : List Item} (h : p.ahead = .ok t :: items)
    (hok : ∀ e rest, items ≠ .error e :: rest) : p.moved.ahead = items := by
  have hc := current_of_ahead h
  have hr : p.upcoming.remaining = items := by simpa [ahead_of_current hc] using h
  cases items with
  | nil => simp [moved, ahead, hr]
  | cons item rest =>
    cases item with
    | error e => exact absurd rfl (hok e rest)
    | ok u => simp [moved, ahead, hr]

end Parser

theorem Token.kind_eq_identifier {t : Token} :
    t.kind = .identifier ↔ ∃ name, t.lexeme = .identifier name := by
  unfold Token.kind
  cases t.lexeme <;> simp [Lexeme.kind]

namespace Parse

/-! ## Steps and what they take -/

/-- Whenever `act` succeeds on `p`, it has taken some tokens from the front of what lay ahead, and
`post` holds of its result, of these tokens and of the parser it leaves. -/
def Takes {α : Type} (act : Parse α) (p : Parser) (post : α → List Token → Parser → Prop) : Prop :=
  ∀ a q, act p = .ok a q → ∃ ts : List Token, p.ahead = ts.map .ok ++ q.ahead ∧ post a ts q

section

variable {α β : Type} {p : Parser}

/-- A sequence that succeeds is two steps that do. -/
theorem ok_of_bind {act : Parse α} {f : α → Parse β} {r : Parser} {b : β}
    (h : (act >>= f) p = .ok b r) :
    ∃ a q, act p = .ok a q ∧ f a q = .ok b r := by
  cases hact : act p with
  | error e q => simp [Bind.bind, EStateM.bind, hact] at h
  | ok a q => exact ⟨a, q, rfl, by simpa [Bind.bind, EStateM.bind, hact] using h⟩

theorem ok_of_map {act : Parse α} {f : α → β} {q : Parser} {b : β} (h : (f <$> act) p = .ok b q) :
    ∃ a, act p = .ok a q ∧ f a = b := by
  cases hact : act p with
  | error e q' => simp [Functor.map, EStateM.map, hact] at h
  | ok a q' =>
    simp only [Functor.map, EStateM.map, hact, EStateM.Result.ok.injEq] at h
    obtain ⟨rfl, rfl⟩ := h
    exact ⟨a, rfl, rfl⟩

/-- What is known of the result may be weakened. -/
theorem Takes.mono {act : Parse α} {post post' : α → List Token → Parser → Prop}
    (h : act.Takes p post) (himp : ∀ a ts q, post a ts q → post' a ts q) : act.Takes p post' := by
  intro a q heq
  obtain ⟨ts, hts, hpost⟩ := h a q heq
  exact ⟨ts, hts, himp a ts q hpost⟩

/-- Steps in sequence take the tokens of the first and then those of the second. -/
theorem Takes.bind {act : Parse α} {f : α → Parse β} {mid : α → List Token → Parser → Prop}
    {post : β → List Token → Parser → Prop} (h : act.Takes p mid)
    (hf : ∀ a ts q, mid a ts q → (f a).Takes q fun b us r => post b (ts ++ us) r) :
    (act >>= f).Takes p post := by
  intro b r heq
  obtain ⟨a, q, hact, hrun⟩ := ok_of_bind heq
  obtain ⟨ts, hts, hmid⟩ := h a q hact
  obtain ⟨us, hus, hpost⟩ := hf a ts q hmid b r hrun
  exact ⟨ts ++ us, by simp [hts, hus], hpost⟩

theorem Takes.map {act : Parse α} {f : α → β} {post : β → List Token → Parser → Prop}
    (h : act.Takes p fun a ts q => post (f a) ts q) : (f <$> act).Takes p post := by
  intro b q heq
  obtain ⟨a, hact, rfl⟩ := ok_of_map heq
  exact h a q hact

/-- A result that is given outright takes no token. -/
theorem Takes.pure {a : α} {post : α → List Token → Parser → Prop} (h : post a [] p) :
    (Pure.pure a : Parse α).Takes p post := by
  intro b q heq
  obtain ⟨rfl, rfl⟩ : a = b ∧ p = q := by simpa [Pure.pure, EStateM.pure] using heq
  exact ⟨[], by simp, h⟩

theorem Takes.get {f : Parser → Parse α} {post : α → List Token → Parser → Prop}
    (h : (f p).Takes p post) :
    (MonadState.get >>= f).Takes p post := h

/-- A step that always fails takes whatever is wanted. -/
theorem takes_failExpected {what : String} {post : α → List Token → Parser → Prop} :
    (failExpected what : Parse α).Takes p post := by
  intro a q heq
  simp [failExpected] at heq

theorem takes_throw {e : ParseError} {post : α → List Token → Parser → Prop} :
    (throw e : Parse α).Takes p post := by
  rintro a q ⟨⟩

theorem takes_stalled {post : α → List Token → Parser → Prop} :
    (stalled : Parse α).Takes p post := by
  intro a q heq
  simp [stalled] at heq

end

/-- What moving on does, by the item after the current token. -/
theorem advance_eq (p : Parser) : advance p =
    match p.upcoming.remaining.head? with
    | some (.error e) => .error e.toParseError { p with upcoming := p.upcoming.next.2 }
    | _ => .ok p.current p.moved := by
  have h := p.upcoming.next_fst
  unfold advance
  cases hn : p.upcoming.next with
  | mk item rest =>
    rw [hn] at h
    simp only at h
    subst h
    cases hh : p.upcoming.remaining.head? with
    | none => cases hc : p.current <;> simp only [Parser.tokenOf, Parser.moved, hh, hn, hc]
    | some i => cases i <;> cases hc : p.current <;>
        simp only [Parser.tokenOf, Parser.moved, hh, hn, hc]

/-- To advance is to take the current token. -/
theorem takes_advance {p : Parser} {t : Token} (hc : p.current = some t) :
    advance.Takes p fun a ts q => a = some t ∧ ts = [t] ∧ q = p.moved := by
  intro a q heq
  have hp := Parser.ahead_of_current hc
  rw [advance_eq] at heq
  split at heq
  · simp at heq
  · rename_i hne
    simp only [EStateM.Result.ok.injEq] at heq
    obtain ⟨rfl, rfl⟩ := heq
    refine ⟨[t], ?_, hc, rfl, rfl⟩
    rw [Parser.ahead_moved hp]
    · simp [hp]
    · intro e rest hr
      exact hne e (by simp [hr])

/-- A token is taken if it passes the test; if none is taken, nothing has changed. -/
theorem takes_takeIf {p : Parser} (test : Token → Bool) :
    (takeIf test).Takes p fun a ts q =>
      (∃ t, p.current = some t ∧ a = some t ∧ test t ∧ ts = [t] ∧ q = p.moved) ∨
        a = none ∧ ts = [] ∧ q = p ∧ p.current.any test = false := by
  refine Takes.get ?_
  cases hc : p.current with
  | none => exact Takes.pure (by simp)
  | some t =>
    by_cases ht : test t
    · simp only [Option.any_some, ht, if_true]
      exact (takes_advance hc).mono fun a ts q ⟨ha, hts, hq⟩ => .inl ⟨t, rfl, ha, ht, hts, hq⟩
    · simp only [Option.any_some, ht]
      exact Takes.pure (.inr ⟨rfl, rfl, rfl, trivial⟩)

/-- A required token is the current one, and it passes the test. -/
theorem takes_require {p : Parser} (test : Token → Bool) (what : String) :
    (require test what).Takes p fun t ts q =>
      p.current = some t ∧ test t ∧ ts = [t] ∧ q = p.moved := by
  refine (takes_takeIf test).bind fun a ts q h => ?_
  rcases h with ⟨t, hc, rfl, ht, rfl, rfl⟩ | ⟨rfl, -, -, -⟩
  · exact Takes.pure (by simp [hc, ht])
  · exact takes_failExpected

theorem takes_punctuation {p : Parser} (text : String) :
    (punctuation text).Takes p fun t ts q =>
      t = ⟨.punctuation text, t.range⟩ ∧ ts = [t] ∧ q = p.moved := by
  refine (takes_require _ _).mono fun t ts q ⟨_, ht, hts, hq⟩ => ⟨?_, hts, hq⟩
  simp only [Token.isPunctuation, beq_iff_eq] at ht
  rw [← ht]

theorem takes_word {p : Parser} (text : String) :
    (word text).Takes p fun t ts q => t = ⟨.identifier text, t.range⟩ ∧ ts = [t] ∧ q = p.moved := by
  refine (takes_require _ _).mono fun t ts q ⟨_, ht, hts, hq⟩ => ⟨?_, hts, hq⟩
  simp only [Token.isIdentifier, beq_iff_eq] at ht
  rw [← ht]

/-- A mark is taken if it is there; if not, nothing has changed. -/
theorem takes_accept {p : Parser} (text : String) :
    (accept text).Takes p fun b ts q =>
      (b = true ∧ ∃ r, ts = [⟨.punctuation text, r⟩]) ∨
        b = false ∧ ts = [] ∧ q = p ∧ p.isPunctuation text = false := by
  refine Takes.get ?_
  by_cases h : p.isPunctuation text
  · rw [if_pos h]
    obtain ⟨t, hc, ht⟩ := (Option.any_eq_true _ _).1 h
    refine (takes_advance hc).bind fun a ts q ⟨_, hts, _⟩ => Takes.pure (.inl ⟨rfl, t.range, ?_⟩)
    simp only [Token.isPunctuation, beq_iff_eq] at ht
    simp [hts, ← ht]
  · rw [if_neg h]
    exact Takes.pure (.inr ⟨rfl, rfl, rfl, by simpa using h⟩)

theorem takes_checkIdentifier {p : Parser} :
    checkIdentifier.Takes p fun _ ts q =>
      ts = [] ∧ q = p ∧ ∃ t name, p.current = some t ∧ t.lexeme = .identifier name := by
  unfold checkIdentifier
  refine Takes.get ?_
  by_cases h : p.isKind .identifier
  · obtain ⟨t, hc, ht⟩ := (Option.any_eq_true _ _).1 h
    obtain ⟨name, hname⟩ := Token.kind_eq_identifier.1 (beq_iff_eq.1 ht)
    rw [if_pos h]
    exact Takes.pure ⟨rfl, rfl, t, name, hc, hname⟩
  · rw [if_neg h]
    exact takes_failExpected

/-- An identifier is taken, and its name is entered. -/
theorem takes_identifier {p : Parser} :
    identifier.Takes p fun i ts q =>
      ts = [⟨.identifier i.name, i.range⟩] ∧
      q = { p.moved with names := p.names.insert i.name } := by
  unfold identifier
  refine takes_checkIdentifier.bind ?_
  rintro _ _ _ ⟨rfl, rfl, t, name, hc, hname⟩
  refine (takes_advance hc).bind ?_
  rintro _ _ _ ⟨rfl, rfl, rfl⟩
  intro i q heq
  obtain ⟨rfl, rfl⟩ := EStateM.Result.ok.inj heq
  refine ⟨[], rfl, ?_, rfl⟩
  rw [hname]
  exact congrArg (fun l => [Token.mk l t.range]) hname

/-- To declare a name takes no token. -/
theorem takes_declare {p : Parser} (ident : Ident) :
    (declare ident).Takes p fun _ ts q => ts = [] ∧ q.ahead = p.ahead := by
  intro id q heq
  obtain ⟨-, rfl⟩ := EStateM.Result.ok.inj heq
  exact ⟨[], rfl, rfl, rfl⟩

theorem Takes.within {α : Type} {p : Parser} {scope : ScopeId} {act : Parse α}
    {post : α → List Token → Parser → Prop}
    (h : act.Takes { p with scope := scope } fun a ts q => post a ts { q with scope := p.scope }) :
    (within scope act).Takes p post := by
  intro a q heq
  unfold Parse.within at heq
  split at heq
  · rename_i b r hact
    obtain ⟨rfl, rfl⟩ := EStateM.Result.ok.inj heq
    exact h b r hact
  · simp at heq

/-- A step in a new scope takes what it takes in any scope. -/
theorem Takes.opening {α : Type} {p : Parser} {kind : ScopeKind} {owner : Option DeclId}
    {act : ScopeId → Parse α} {post : α → List Token → Parser → Prop}
    (h : ∀ id scopes, (act id).Takes { p with scopes := scopes, scope := id }
      fun a ts q => post a ts { q with scope := p.scope }) :
    (opening kind owner act).Takes p post := by
  intro a q heq
  exact Takes.within (p := { p with scopes := (p.scopes.push kind p.scope owner).2 })
    (h (p.scopes.push kind p.scope owner).1 _) a q heq

/-! ## Repetition -/

/-- `xs` are read from `ts` one after the other, each as `R` says. -/
inductive Listed {α : Type} (R : α → List Token → Prop) : List α → List Token → Prop
  | nil : Listed R [] []
  | cons {x : α} {xs : List α} {ts us : List Token} :
      R x ts → Listed R xs us → Listed R (x :: xs) (ts ++ us)

/-- `xs` are read from `ts` as `R` says, with commas in between. -/
inductive Separated {α : Type} (R : α → List Token → Prop) : List α → List Token → Prop
  | nil : Separated R [] []
  | one {x : α} {ts : List Token} : R x ts → Separated R [x] ts
  | cons {x y : α} {xs : List α} {ts us : List Token} {r : Range} :
      R x ts → Separated R (y :: xs) us →
        Separated R (x :: y :: xs) (ts ++ ⟨.punctuation ",", r⟩ :: us)

/-- Items up to a stop take the tokens of one after the other. -/
theorem takes_itemsUntil {α : Type} {R : α → List Token → Prop} {item : Parse α}
    {stop : Parser → Bool} (hitem : ∀ p, item.Takes p fun x ts _ => R x ts) :
    ∀ (n : Nat) (p : Parser),
      (itemsUntil stop item n).Takes p fun xs ts q => Listed R xs ts ∧ stop q
  | 0, _ => takes_stalled
  | n + 1, p => by
    rw [itemsUntil]
    refine Takes.get ?_
    by_cases h : stop p
    · rw [if_pos h]
      exact Takes.pure ⟨.nil, h⟩
    · rw [if_neg h]
      refine (hitem p).bind fun x ts q hx => ?_
      refine (takes_itemsUntil hitem n q).bind ?_
      rintro xs us r ⟨hxs, hr⟩
      exact Takes.pure ⟨by simpa using hxs.cons hx, hr⟩

theorem takes_separatedItems {α : Type} {R : α → List Token → Prop} {item : Parse α}
    {stop : Parser → Bool} (hitem : ∀ p, item.Takes p fun x ts _ => R x ts) :
    ∀ (n : Nat) (p : Parser), (separatedItems item stop (accept ",") n).Takes p fun xs ts q =>
      (∃ x rest, xs = x :: rest) ∧ Separated R xs ts ∧ stop q
  | 0, _ => takes_stalled
  | n + 1, p => by
    rw [separatedItems]
    refine (hitem p).bind fun x ts q hx => ?_
    refine Takes.get ?_
    by_cases h : stop q
    · rw [if_pos h]
      exact Takes.pure ⟨⟨x, [], rfl⟩, by simpa using Separated.one hx, h⟩
    · rw [if_neg h]
      refine (takes_accept ",").bind fun b us q' hb => ?_
      rcases hb with ⟨rfl, r, rfl⟩ | ⟨rfl, -, -, -⟩
      · refine (takes_separatedItems hitem n q').bind ?_
        rintro _ vs r' ⟨⟨y, rest, rfl⟩, hsep, hstop⟩
        exact Takes.pure ⟨⟨x, _, rfl⟩, by simpa using Separated.cons hx hsep, hstop⟩
      · exact takes_failExpected

/-- A list with commas takes the tokens of its items with commas in between. -/
theorem takes_separated {α : Type} {R : α → List Token → Prop} {item : Parse α}
    {stop : Parser → Bool} (hitem : ∀ p, item.Takes p fun x ts _ => R x ts) (n : Nat) (p : Parser) :
    (separated item stop (accept ",") n).Takes p fun xs ts q => Separated R xs ts ∧ stop q := by
  unfold separated
  refine Takes.get ?_
  by_cases h : stop p
  · rw [if_pos h]
    exact Takes.pure ⟨.nil, h⟩
  · rw [if_neg h]
    exact (takes_separatedItems hitem n p).mono fun xs ts q hpost => hpost.2

end Parse

/-! ## Sequences of tokens -/

/-- Only tokens lie ahead of the parser, and they are `ts`. -/
def Parser.Reads (p : Parser) (ts : List Token) : Prop :=
  p.ahead = ts.map .ok

namespace Parser.Reads

variable {p : Parser} {t : Token} {ts : List Token}

theorem current (h : p.Reads (t :: ts)) : p.current = some t :=
  current_of_ahead h

theorem current_nil (h : p.Reads []) : p.current = none :=
  current_eq_none_of_ahead h

theorem moved (h : p.Reads (t :: ts)) : p.moved.Reads ts := by
  refine ahead_moved h fun e rest hrest => ?_
  cases ts <;> simp at hrest

theorem upcoming (h : p.Reads (t :: ts)) : p.upcoming.remaining = ts.map .ok := by
  have := ahead_of_current h.current
  rw [h] at this
  simpa using this.symm

theorem length (h : p.Reads ts) : p.ahead.length = ts.length := by
  rw [h, List.length_map]

/-- At a mark, the parser is at that mark and at no other. -/
theorem isPunctuation {text : String} {r : Range} (h : p.Reads (⟨.punctuation text, r⟩ :: ts))
    (text' : String) : p.isPunctuation text' = (text == text') := by
  rw [Bool.eq_iff_iff]
  simp [Parser.isPunctuation, h.current, Token.isPunctuation]

end Parser.Reads

namespace Parse

/-- `act` succeeds on `p`, and `post` holds of its result and of the parser it leaves. -/
def Succeeds {α : Type} (act : Parse α) (p : Parser) (post : α → Parser → Prop) : Prop :=
  ∃ a q, act p = .ok a q ∧ post a q

section

variable {α β : Type} {p : Parser}

/-- What is known of the result may be weakened. -/
theorem Succeeds.mono {act : Parse α} {post post' : α → Parser → Prop} (h : act.Succeeds p post)
    (himp : ∀ a q, post a q → post' a q) : act.Succeeds p post' := by
  obtain ⟨a, q, heq, hpost⟩ := h
  exact ⟨a, q, heq, himp a q hpost⟩

/-- Steps in sequence succeed if the first does and the second does after it. -/
theorem Succeeds.bind {act : Parse α} {f : α → Parse β} {mid : α → Parser → Prop}
    {post : β → Parser → Prop} (h : act.Succeeds p mid)
    (hf : ∀ a q, mid a q → (f a).Succeeds q post) :
    (act >>= f).Succeeds p post := by
  obtain ⟨a, q, heq, hmid⟩ := h
  obtain ⟨b, r, heq', hpost⟩ := hf a q hmid
  exact ⟨b, r, by simp [Bind.bind, EStateM.bind, heq, heq'], hpost⟩

theorem Succeeds.map {act : Parse α} {f : α → β} {post : β → Parser → Prop}
    (h : act.Succeeds p fun a q => post (f a) q) : (f <$> act).Succeeds p post := by
  obtain ⟨a, q, heq, hpost⟩ := h
  exact ⟨f a, q, by simp [Functor.map, EStateM.map, heq], hpost⟩

theorem Succeeds.pure {a : α} {post : α → Parser → Prop} (h : post a p) :
    (Pure.pure a : Parse α).Succeeds p post :=
  ⟨a, p, rfl, h⟩

theorem Succeeds.get {f : Parser → Parse α} {post : α → Parser → Prop} (h : (f p).Succeeds p post) :
    (MonadState.get >>= f).Succeeds p post := h

end

variable {p : Parser} {ts : List Token}

theorem succeeds_advance {t : Token} (h : p.Reads (t :: ts)) :
    advance.Succeeds p fun a q => a = some t ∧ q.Reads ts := by
  refine ⟨some t, p.moved, ?_, rfl, h.moved⟩
  have hc := h.current
  have hr := h.upcoming
  rw [advance_eq]
  cases ts with
  | nil => simp [hr, hc]
  | cons u us => simp [hr, hc]

/-- A required token that lies ahead is taken. -/
theorem succeeds_require {t : Token} {test : Token → Bool} {what : String} (h : p.Reads (t :: ts))
    (ht : test t) : (require test what).Succeeds p fun a q => a = t ∧ q.Reads ts := by
  have htake : (takeIf test).Succeeds p fun a q => a = some t ∧ q.Reads ts := by
    refine Succeeds.get ?_
    rw [h.current, Option.any_some, if_pos ht]
    exact succeeds_advance h
  refine htake.bind ?_
  rintro _ q ⟨rfl, hq⟩
  exact Succeeds.pure ⟨rfl, hq⟩

theorem succeeds_punctuation {text : String} {r : Range}
    (h : p.Reads (⟨.punctuation text, r⟩ :: ts)) :
    (punctuation text).Succeeds p fun a q => a = ⟨.punctuation text, r⟩ ∧ q.Reads ts :=
  succeeds_require h (by simp [Token.isPunctuation])

theorem succeeds_word {text : String} {r : Range} (h : p.Reads (⟨.identifier text, r⟩ :: ts)) :
    (word text).Succeeds p fun a q => a = ⟨.identifier text, r⟩ ∧ q.Reads ts :=
  succeeds_require h (by simp [Token.isIdentifier])

/-- A mark that lies ahead is taken. -/
theorem succeeds_accept {text : String} {r : Range} (h : p.Reads (⟨.punctuation text, r⟩ :: ts)) :
    (accept text).Succeeds p fun b q => b = true ∧ q.Reads ts := by
  refine Succeeds.get ?_
  have htest : p.isPunctuation text := by
    simp [Parser.isPunctuation, h.current, Token.isPunctuation]
  rw [if_pos htest]
  exact (succeeds_advance h).bind fun _ q ⟨_, hq⟩ => Succeeds.pure ⟨rfl, hq⟩

/-- A mark that is not there is not taken, and the parser stays as it is. -/
theorem succeeds_accept_false {text : String} (h : p.isPunctuation text = false) :
    (accept text).Succeeds p fun b q => b = false ∧ q = p := by
  refine Succeeds.get ?_
  rw [if_neg (by simp [h])]
  exact Succeeds.pure ⟨rfl, rfl⟩

/-- An identifier that lies ahead is taken. -/
theorem succeeds_identifier {name : String} {r : Range}
    (h : p.Reads (⟨.identifier name, r⟩ :: ts)) :
    identifier.Succeeds p fun i q => i = ⟨name, r⟩ ∧ q.Reads ts := by
  have hcheck : checkIdentifier.Succeeds p fun _ q => q = p := by
    refine Succeeds.get ?_
    have htest : p.isKind .identifier := by simp [Parser.isKind, h.current, Token.kind, Lexeme.kind]
    rw [if_pos htest]
    exact Succeeds.pure rfl
  refine hcheck.bind ?_
  rintro _ _ rfl
  refine (succeeds_advance h).bind ?_
  rintro _ q ⟨rfl, hq⟩
  exact ⟨_, _, rfl, rfl, hq⟩

theorem succeeds_declare (h : p.Reads ts) (ident : Ident) :
    (declare ident).Succeeds p fun _ q => q.Reads ts :=
  ⟨_, _, rfl, h⟩

theorem Succeeds.within {α : Type} {scope : ScopeId} {act : Parse α} {post : α → Parser → Prop}
    (h : act.Succeeds { p with scope := scope } fun a q => post a { q with scope := p.scope }) :
    (within scope act).Succeeds p post := by
  obtain ⟨a, q, heq, hpost⟩ := h
  exact ⟨a, { q with scope := p.scope }, by simp [Parse.within, heq], hpost⟩

theorem Succeeds.opening {α : Type} {kind : ScopeKind} {owner : Option DeclId}
    {act : ScopeId → Parse α} {post : α → Parser → Prop}
    (h : ∀ id scopes, (act id).Succeeds { p with scopes := scopes, scope := id }
      fun a q => post a { q with scope := p.scope }) :
    (opening kind owner act).Succeeds p post :=
  Succeeds.within (p := { p with scopes := (p.scopes.push kind p.scope owner).2 })
    (h (p.scopes.push kind p.scope owner).1 _)

/-- What an item must do to be read in a list in parentheses : from tokens that `W` gives `x`, and
a comma or the closing parenthesis after them, it reads something with the key of `x`. At most
`size` tokens lie ahead. -/
def ReadsItem {α β : Type} (item : Parse α) (key : α → β) (W : α → List Token → Prop) (size : Nat) :
    Prop :=
  ∀ ⦃x us⦄, W x us → ∀ ⦃p c r more⦄, c = "," ∨ c = ")" → us.length + more.length < size →
    p.Reads (us ++ ⟨.punctuation c, r⟩ :: more) →
    p.isPunctuation ")" = false ∧
      item.Succeeds p fun y q => key y = key x ∧ q.Reads (⟨.punctuation c, r⟩ :: more)

section

variable {α β : Type} {item : Parse α} {key : α → β} {W : α → List Token → Prop} {size : Nat}
  {r : Range}
  {rest : List Token}

/-- Items with commas in between are read up to a closing parenthesis, one after the other.
At least one is there. -/
theorem succeeds_separatedItems (hitem : ReadsItem item key W size) {xs : List α} {ts : List Token}
    (hsep : Separated W xs ts) : ∀ {m : Nat} {p : Parser}, xs ≠ [] → ts.length < m →
      ts.length + rest.length < size → p.Reads (ts ++ ⟨.punctuation ")", r⟩ :: rest) →
      p.isPunctuation ")" = false ∧
        (separatedItems item (·.isPunctuation ")") (accept ",") m).Succeeds p fun ys q =>
          ys.map key = xs.map key ∧ q.Reads (⟨.punctuation ")", r⟩ :: rest) := by
  induction hsep with
  | nil => exact fun hne => absurd rfl hne
  | one hx =>
    intro m p _ hm hsize hp
    obtain ⟨m, rfl⟩ : ∃ k, m = k + 1 := ⟨m - 1, by omega⟩
    obtain ⟨hstart, hread⟩ := hitem hx (.inr rfl) hsize hp
    refine ⟨hstart, ?_⟩
    rw [separatedItems]
    refine hread.bind fun y q ⟨hy, hq⟩ => Succeeds.get ?_
    rw [if_pos (by simp [hq.isPunctuation])]
    exact Succeeds.pure ⟨by simp [hy], hq⟩
  | @cons x next xs us vs c hx _ ih =>
    intro m p _ hm hsize hp
    obtain ⟨m, rfl⟩ : ∃ k, m = k + 1 := ⟨m - 1, by omega⟩
    simp only [List.append_assoc, List.cons_append, List.length_append,
      List.length_cons] at hp hm hsize
    obtain ⟨hstart, hread⟩ :=
      hitem hx (.inl rfl) (by simp only [List.length_append, List.length_cons]; omega) hp
    refine ⟨hstart, ?_⟩
    rw [separatedItems]
    refine hread.bind fun y q ⟨hy, hq⟩ => Succeeds.get ?_
    rw [if_neg (by simp [hq.isPunctuation])]
    refine (succeeds_accept hq).bind ?_
    rintro _ q₁ ⟨rfl, hq₁⟩
    refine (ih (by simp) (by omega) (by omega) hq₁).2.bind ?_
    rintro ys q₂ ⟨hys, hq₂⟩
    exact Succeeds.pure ⟨by simp [hy, hys], hq₂⟩

/-- Items with commas in between are read up to the closing parenthesis. -/
theorem succeeds_separated (hitem : ReadsItem item key W size) {xs : List α} {ts : List Token}
    (hsep : Separated W xs ts) {m : Nat} {p : Parser} (hm : ts.length < m)
    (hsize : ts.length + rest.length < size) (hp : p.Reads (ts ++ ⟨.punctuation ")", r⟩ :: rest)) :
    (separated item (·.isPunctuation ")") (accept ",") m).Succeeds p fun ys q =>
      ys.map key = xs.map key ∧ q.Reads (⟨.punctuation ")", r⟩ :: rest) := by
  refine Succeeds.get ?_
  by_cases hne : xs = []
  · subst hne
    cases hsep
    rw [if_pos (by simp [hp.isPunctuation])]
    exact Succeeds.pure ⟨rfl, hp⟩
  · obtain ⟨hstart, hread⟩ := succeeds_separatedItems hitem hsep hne hm hsize hp
    rw [if_neg (by simp [hstart])]
    exact hread

end

end Parse

/-! ## The tokens of a buffer -/

/-- Items are collected into tokens if there is no fault among them. -/
theorem Item.collect_eq_ok : ∀ {items : List Item} {ts : List Token},
    Item.collect items = .ok ts ↔ items = ts.map .ok
  | [], ts => by cases ts <;> simp [Item.collect]
  | .error e :: _, ts => by cases ts <;> simp [Item.collect]
  | .ok t :: rest, ts => by
    cases hrest : Item.collect rest with
    | error e =>
      have hne : ∀ us : List Token, rest ≠ us.map .ok := fun us h => by
        simp [Item.collect_eq_ok.2 h] at hrest
      cases ts <;> simp [Item.collect, hrest, Except.map, hne]
    | ok us =>
      obtain rfl := Item.collect_eq_ok.1 hrest
      cases ts <;> simp [Item.collect, hrest, Except.map, List.map_inj_right]

/-- The tokens of a buffer are those that remain of its items, if all that remain are tokens. -/
theorem Buffer.tokens_eq_ok {b : Buffer} {ts : List Token} :
    b.tokens = .ok ts ↔ (Filter.ofItems Filter.trivia b.items).remaining = ts.map .ok := by
  rw [Buffer.tokens, Filter.toList_eq, Item.collect_eq_ok]

/-- The parser at the start of a buffer that does not start with a fault. -/
def Parser.ofBuffer (b : Buffer) : Parser where
  current := match (Filter.ofItems Filter.trivia b.items).remaining.head? with
    | some (.ok t) => some t
    | _ => none
  upcoming := (Filter.ofItems Filter.trivia b.items).next.2
  previousEnd := .origin
  sourceEnd := (b.location? b.size).getD .origin
  names := .initial
  scopes := .empty
  scope := .global
  nextDecl := 0

/-- A parser can be started unless the first item of the buffer is a fault. -/
theorem Parser.start_eq (b : Buffer) : Parser.start b =
    match (Filter.ofItems Filter.trivia b.items).remaining.head? with
    | some (.error e) => .error e.toParseError
    | _ => .ok (ofBuffer b) := by
  have hfst := (Filter.ofItems Filter.trivia b.items).next_fst
  unfold Parser.start ofBuffer
  cases hn : (Filter.ofItems Filter.trivia b.items).next with
  | mk item rest =>
    rw [hn] at hfst
    simp only at hfst
    subst hfst
    cases hh : (Filter.ofItems Filter.trivia b.items).remaining.head? with
    | none => rfl
    | some i => cases i <;> rfl

/-- A parser at the start of a buffer has all its items ahead. -/
theorem Parser.ahead_of_start {b : Buffer} {p : Parser} (h : Parser.start b = .ok p) :
    p.ahead = (Filter.ofItems Filter.trivia b.items).remaining := by
  rw [Parser.start_eq] at h
  cases hr : (Filter.ofItems Filter.trivia b.items).remaining with
  | nil =>
    obtain rfl : ofBuffer b = p := by simpa [hr] using h
    simp [ahead, ofBuffer, hr]
  | cons item rest =>
    cases item with
    | error e => simp [hr] at h
    | ok t =>
      obtain rfl : ofBuffer b = p := by simpa [hr] using h
      simp [ahead, ofBuffer, hr]

theorem Parser.start_eq_ofBuffer {b : Buffer} {ts : List Token} (h : b.tokens = .ok ts) :
    Parser.start b = .ok (ofBuffer b) := by
  rw [Parser.start_eq, Buffer.tokens_eq_ok.1 h]
  cases ts <;> rfl

/-- A buffer of tokens has a parser that reads them. -/
theorem Parser.start_of_tokens {b : Buffer} {ts : List Token} (h : b.tokens = .ok ts) :
    ∃ p, Parser.start b = .ok p ∧ p.Reads ts := by
  have hstart := start_eq_ofBuffer h
  exact ⟨_, hstart, (ahead_of_start hstart).trans (Buffer.tokens_eq_ok.1 h)⟩

end Rill
