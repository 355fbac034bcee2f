import Rill.Proofs.Closure
import Rill.Proofs.StatementSound

/-!
# Reading on

A parser sees its current token and at most the one after it. So what it has read of a text it reads
in the same way of every longer text, as long as it has not come to the end of the shorter one. It
may do so also at the end : a semicolon or a closing brace is taken without a look at what follows.
Only a statement that ends in an `if` without `else` looks further (`Stmt.endsOpen`).

`Parse.Carries rest c act act' p` says so of a step on `p` and one on a parser that has `rest`
after the same tokens. The second step may have a larger bound on its nesting. The result is the
same, not only up to ranges.
-/

namespace Rill

/-- The second parser is like the first, with more tokens at the end. -/
structure Parser.Begins (rest : List Token) (p p' : Parser) : Prop where
  ahead : ∃ ts, p.Reads ts ∧ p'.Reads (ts ++ rest)
  names : p'.names = p.names
  scopes : p'.scopes = p.scopes
  scope : p'.scope = p.scope
  nextDecl : p'.nextDecl = p.nextDecl

namespace Parser.Begins

variable {rest : List Token} {p p' : Parser} {t : Token}

/-- At a token both parsers read it, and the same tokens after it, before `rest` follows. -/
theorem reads (h : p.Begins rest p') (hc : p.current = some t) :
    ∃ ts, p.Reads (t :: ts) ∧ p'.Reads (t :: (ts ++ rest)) := by
  obtain ⟨ts, hp, hp'⟩ := h.ahead
  cases ts with
  | nil =>
    rw [hp.current_nil] at hc
    cases hc
  | cons u ts =>
    obtain rfl : u = t := by simpa [hp.current] using hc
    exact ⟨ts, hp, hp'⟩

/-- As long as there is a current token, more tokens at the end do not change it. -/
theorem current (h : p.Begins rest p') (hsome : p.current.isSome) : p'.current = p.current := by
  obtain ⟨t, hc⟩ := Option.isSome_iff_exists.1 hsome
  obtain ⟨ts, -, hp'⟩ := h.reads hc
  rw [hp'.current, hc]

theorem place (h : p.Begins rest p') (hsome : p.current.isSome) : p'.place = p.place := by
  obtain ⟨t, hc⟩ := Option.isSome_iff_exists.1 hsome
  simp only [Parser.place, h.current hsome, hc]

theorem isPunctuation (h : p.Begins rest p') (hsome : p.current.isSome) (text : String) :
    p'.isPunctuation text = p.isPunctuation text := by
  simp only [Parser.isPunctuation, h.current hsome]

theorem isIdentifier (h : p.Begins rest p') (hsome : p.current.isSome) (name : String) :
    p'.isIdentifier name = p.isIdentifier name := by
  simp only [Parser.isIdentifier, h.current hsome]

theorem isEmpty (h : p.Begins rest p') (hsome : p.current.isSome) : p'.isEmpty = p.isEmpty := by
  simp only [Parser.isEmpty, h.current hsome]

theorem operator? (h : p.Begins rest p') (hsome : p.current.isSome) :
    p'.operator? = p.operator? := by
  simp only [Parser.operator?, h.current hsome]

theorem formWord? (h : p.Begins rest p') (hsome : p.current.isSome) :
    p'.formWord? = p.formWord? := by
  simp only [Parser.formWord?, h.current hsome]

theorem moved (h : p.Begins rest p') (hc : p.current = some t) : p.moved.Begins rest p'.moved := by
  obtain ⟨ts, hp, hp'⟩ := h.reads hc
  exact ⟨⟨ts, hp.moved, hp'.moved⟩, h.names, h.scopes, h.scope, h.nextDecl⟩

end Parser.Begins

namespace Parse

variable {α β : Type} {rest : List Token} {p : Parser} {t : Token} {ts : List Token}

/-- What the step reads of a text, another step reads of that text followed by `rest`, if the first
has not come to the end of the text or if `c` holds of its result. It does not start at the end. -/
def Carries (rest : List Token) (c : α → Bool) (act act' : Parse α) (p : Parser) : Prop :=
  ∀ a q, act p = .ok a q → (c a ∨ q.current.isSome) →
    p.current.isSome ∧ ∀ p', p.Begins rest p' → ∃ q', act' p' = .ok a q' ∧ q.Begins rest q'

/-- The step may come to the end of the text. -/
abbrev Fully (rest : List Token) (act act' : Parse α) (p : Parser) : Prop :=
  Carries rest (fun _ => true) act act' p

/-- The step must not come to the end of the text. -/
abbrev Partly (rest : List Token) (act act' : Parse α) (p : Parser) : Prop :=
  Carries rest (fun _ => false) act act' p

/-! ## Rules -/

namespace Carries

variable {act act' other other' : Parse α} {c : α → Bool}

theorem mono {c' : α → Bool} (h : Carries rest c' act act' p) (hc : ∀ a, c a → c' a) :
    Carries rest c act act' p :=
  fun a q hrun hend => h a q hrun (hend.imp_left (hc a))

theorem of_fully (h : Fully rest act act' p) : Carries rest c act act' p := h.mono fun _ _ => rfl

theorem partly (h : Carries rest c act act' p) : Partly rest act act' p :=
  h.mono fun _ hfalse => Bool.noConfusion hfalse

/-- Steps in sequence are carried over if the first does not come to the end, which it cannot do if
the second has something to start from. -/
theorem bind {f f' : α → Parse β} {c : β → Bool} (h : Partly rest act act' p)
    (hf : ∀ a q, Carries rest c (f a) (f' a) q) : Carries rest c (act >>= f) (act' >>= f') p := by
  intro b r hrun hend
  obtain ⟨a, q, hact, hnext⟩ := ok_of_bind hrun
  obtain ⟨hq, hcarry⟩ := hf a q b r hnext hend
  obtain ⟨hp, hcarry'⟩ := h a q hact (.inr hq)
  refine ⟨hp, fun p' hp' => ?_⟩
  obtain ⟨q', hact', hq'⟩ := hcarry' p' hp'
  obtain ⟨r', hnext', hr'⟩ := hcarry q' hq'
  exact ⟨r', by simp [Bind.bind, EStateM.bind, hact', hnext'], hr'⟩

/-- What comes after the last token may look at the scope and do nothing else. -/
theorem result {c' : β → Bool} {g : α → ScopeId → β} (h : Carries rest c act act' p)
    (hc : ∀ a scope, c' (g a scope) → c a) :
    Carries rest c' (act >>= fun a => get >>= fun q => pure (g a q.scope))
      (act' >>= fun a => get >>= fun q => pure (g a q.scope)) p := by
  intro b r hrun hend
  obtain ⟨a, q, hact, hnext⟩ := ok_of_bind hrun
  obtain ⟨rfl, rfl⟩ := EStateM.Result.ok.inj hnext
  obtain ⟨hp, hcarry⟩ := h a q hact (hend.imp_left (hc a _))
  refine ⟨hp, fun p' hp' => ?_⟩
  obtain ⟨q', hact', hq'⟩ := hcarry p' hp'
  refine ⟨q', ?_, hq'⟩
  simp only [Bind.bind, EStateM.bind, hact']
  rw [← hq'.scope]
  rfl

theorem map {c' : β → Bool} {g : α → β} (h : Carries rest c act act' p) (hc : ∀ a, c' (g a) → c a) :
    Carries rest c' (act >>= fun a => pure (g a)) (act' >>= fun a => pure (g a)) p :=
  h.result (g := fun a _ => g a) fun a _ => hc a

theorem functorMap {c' : β → Bool} {g : α → β} (h : Carries rest c act act' p)
    (hc : ∀ a, c' (g a) → c a) :
    Carries rest c' (g <$> act) (g <$> act') p := by
  rw [map_eq_pure_bind, map_eq_pure_bind]
  exact h.map hc

/-- A result for which the condition fails says nothing about the end of the text. -/
theorem pure_of_eq_false {a : α} (h : c a = false) :
    Carries rest c (Pure.pure a) (Pure.pure a) p := by
  intro b q hrun hend
  obtain ⟨rfl, rfl⟩ := EStateM.Result.ok.inj hrun
  exact ⟨hend.resolve_left (Bool.eq_false_iff.1 h), fun p' hp' => ⟨p', rfl, hp'⟩⟩

/-- A step that takes nothing cannot come to the end : it does not start there. -/
theorem pure (a : α) : Partly rest (Pure.pure a) (Pure.pure a) p := pure_of_eq_false rfl

/-- A step that looks at the current token makes the same step on the longer text. -/
theorem get {f f' : Parser → Parse α} (h : Carries rest c (f p) (f' p) p)
    (hsame : ∀ p', p.Begins rest p' → p.current.isSome → f' p' = f' p) :
    Carries rest c (MonadState.get >>= f) (MonadState.get >>= f') p := by
  intro a q hrun hend
  obtain ⟨hp, hcarry⟩ := h a q hrun hend
  refine ⟨hp, fun p' hp' => ?_⟩
  obtain ⟨q', hrun', hq'⟩ := hcarry p' hp'
  exact ⟨q', (congrFun (hsame p' hp' hp) p').trans hrun', hq'⟩

/-- Two branches are carried over if each is, where it is chosen. -/
theorem ite {b : Bool} (h : b = true → Carries rest c act act' p)
    (hother : b = false → Carries rest c other other' p) :
    Carries rest c (if b then act else other) (if b then act' else other') p := by
  cases b with
  | true => exact h rfl
  | false => exact hother rfl

theorem within (scope : ScopeId) (h : Carries rest c act act' { p with scope := scope }) :
    Carries rest c (Parse.within scope act) (Parse.within scope act') p := by
  intro a q hrun hend
  unfold Parse.within at hrun
  split at hrun
  · rename_i b r hact
    obtain ⟨rfl, rfl⟩ := EStateM.Result.ok.inj hrun
    obtain ⟨hp, hcarry⟩ := h b r hact hend
    refine ⟨hp, fun p' hp' => ?_⟩
    obtain ⟨q', hact', hq'⟩ := hcarry { p' with scope := scope } { hp' with scope := rfl }
    refine ⟨{ q' with scope := p'.scope }, ?_, { hq' with scope := hp'.scope }⟩
    simp only [Parse.within, hact']
  · cases hrun

/-- A step in a new scope is carried over if it is in every scope. -/
theorem opening {act act' : ScopeId → Parse α} (kind : ScopeKind) (owner : Option DeclId)
    (h : ∀ id q, Carries rest c (act id) (act' id) q) :
    Carries rest c (Parse.opening kind owner act) (Parse.opening kind owner act') p := by
  intro a q hrun hend
  obtain ⟨hp, hcarry⟩ :=
    (h _ _).within (p := { p with scopes := (p.scopes.push kind p.scope owner).2 }) _ a q hrun hend
  refine ⟨hp, fun p' hp' => ?_⟩
  have hpush : p'.scopes.push kind p'.scope owner = p.scopes.push kind p.scope owner := by
    rw [hp'.scopes, hp'.scope]
  obtain ⟨q', hrun', hq'⟩ := hcarry { p' with scopes := (p'.scopes.push kind p'.scope owner).2 }
    { hp' with scopes := congrArg Prod.snd hpush }
  refine ⟨q', ?_, hq'⟩
  have hid := congrArg Prod.fst hpush
  change Parse.within (p'.scopes.push kind p'.scope owner).1
    (act' (p'.scopes.push kind p'.scope owner).1) _ = _
  rw [hid]
  exact hrun'

end Carries

/-- A step that fails reads nothing that could be carried over. -/
theorem carries_failExpected {what : String} {act' : Parse α} {c : α → Bool} :
    Carries rest c (failExpected what) act' p := by
  rintro a q ⟨⟩

theorem carries_failExpectedExpr {act' : Parse α} {c : α → Bool} :
    Carries rest c failExpectedExpr act' p := by
  rintro a q ⟨⟩

theorem carries_stalled {act' : Parse α} {c : α → Bool} : Carries rest c stalled act' p := by
  rintro a q ⟨⟩

theorem carries_throw {e : ParseError} {act' : Parse α} {c : α → Bool} :
    Carries rest c (throw e) act' p := by
  rintro a q ⟨⟩

/-! ## Steps -/

/-- Taking a token that lies ahead moves the parser past it. -/
theorem advance_of_reads (h : p.Reads (t :: ts)) : advance p = .ok (some t) p.moved := by
  have hc := h.current
  have hr := h.upcoming
  rw [advance_eq]
  cases ts with
  | nil => simp [hr, hc]
  | cons u us => simp [hr, hc]

/-- A token that passes the test is taken. -/
theorem require_of_reads {test : Token → Bool} {what : String} (h : p.Reads (t :: ts))
    (ht : test t) :
    require test what p = .ok t p.moved := by
  have htake : takeIf test p = .ok (some t) p.moved := by
    change (if p.current.any test then advance else pure none) p = .ok (some t) p.moved
    rw [h.current, Option.any_some, if_pos ht, advance_of_reads h]
  unfold require
  simp only [Bind.bind, EStateM.bind, htake]
  rfl

/-- An identifier is taken, and its name is entered. -/
theorem identifier_of_reads {name : String} {r : Range}
    (h : p.Reads (⟨.identifier name, r⟩ :: ts)) :
    identifier p = .ok ⟨name, r⟩ { p.moved with names := p.names.insert name } := by
  have hcheck : checkIdentifier p = .ok ⟨⟩ p := by
    change (if p.isKind .identifier then pure ⟨⟩
      else failExpected "identifier" : Parse PUnit) p = .ok ⟨⟩ p
    rw [if_pos (by simp [Parser.isKind, h.current, Token.kind, Lexeme.kind])]
    rfl
  unfold identifier
  simp only [Bind.bind, EStateM.bind, hcheck, advance_of_reads h]
  rfl

theorem carries_advance (hc : p.current = some t) : Fully rest advance advance p := by
  intro a q hrun _
  obtain ⟨ts, -, rfl, -, rfl⟩ := takes_advance hc a q hrun
  refine ⟨by rw [hc]; rfl, fun p' hp' => ⟨p'.moved, ?_, hp'.moved hc⟩⟩
  obtain ⟨ts, -, hp'⟩ := hp'.reads hc
  exact advance_of_reads hp'

/-- A required token may be the last of the text. -/
theorem carries_require (test : Token → Bool) (what : String) :
    Fully rest (require test what) (require test what) p := by
  intro t q hrun _
  obtain ⟨ts, -, hc, ht, -, rfl⟩ := takes_require test what t q hrun
  refine ⟨by rw [hc]; rfl, fun p' hp' => ⟨p'.moved, ?_, hp'.moved hc⟩⟩
  obtain ⟨ts, -, hp'⟩ := hp'.reads hc
  exact require_of_reads hp' ht

theorem carries_punctuation (text : String) : Fully rest (punctuation text) (punctuation text) p :=
  carries_require _ _

theorem carries_word (text : String) : Fully rest (word text) (word text) p := carries_require _ _

/-- An identifier may be the last token of the text. -/
theorem carries_identifier : Fully rest identifier identifier p := by
  intro i q hrun _
  obtain ⟨ts, hahead, rfl, rfl⟩ := takes_identifier i q hrun
  have hc := Parser.current_of_ahead hahead
  refine ⟨by rw [hc]; rfl,
    fun p' hp' => ⟨{ p'.moved with names := p'.names.insert i.name }, ?_, ?_⟩⟩
  · obtain ⟨ts, -, hp'⟩ := hp'.reads hc
    exact identifier_of_reads hp'
  · exact { hp'.moved hc with names := congrArg (·.insert i.name) hp'.names }

/-- Whether a mark is there can be told only before the end of the text. -/
theorem carries_accept (text : String) : Partly rest (accept text) (accept text) p := by
  refine Carries.get (Carries.ite (fun ht => ?_) fun _ => .pure false) fun p' hp' hsome => ?_
  · obtain ⟨t, hc, -⟩ := (Option.any_eq_true _ _).1 ht
    exact (carries_advance hc).partly.bind fun _ _ => .pure true
  · rw [hp'.isPunctuation hsome]

theorem carries_declare (ident : Ident) : Partly rest (declare ident) (declare ident) p := by
  intro id q hrun hend
  obtain ⟨rfl, rfl⟩ := EStateM.Result.ok.inj hrun
  refine ⟨hend.resolve_left Bool.false_ne_true, fun p' hp' => ?_⟩
  have hrun' : declare ident p' = .ok ⟨p'.nextDecl⟩
      { p' with
        nextDecl := p'.nextDecl + 1
        scopes := p'.scopes.add p'.scope ident.name ⟨p'.nextDecl⟩ } := rfl
  rw [hrun', hp'.nextDecl, hp'.scopes, hp'.scope]
  exact ⟨_, rfl, { hp' with scopes := rfl, scope := rfl, nextDecl := rfl }⟩

/-- What follows an identifier is the same if the text does not end there. -/
theorem identifierFollows_of_begins {p' : Parser} (h : p.Begins rest p') (hc : p.current = some t)
    (hsome : p.moved.current.isSome) : p'.identifierFollows = p.identifierFollows := by
  obtain ⟨ts, hp, hp'⟩ := h.reads hc
  cases ts with
  | nil =>
    rw [hp.moved.current_nil] at hsome
    cases hsome
  | cons u us =>
    simp only [Parser.identifierFollows, Filter.peek_eq, hp.upcoming, hp'.upcoming]; rfl

/-- A type in front of a name is told from the name by the token after it, so there must be one. -/
theorem carries_typeRef? (hnext : ∀ name range, p.current = some ⟨.identifier name, range⟩ →
    p.moved.current.isSome) : Partly rest typeRef? typeRef? p := by
  refine Carries.get ?_ fun p' hp' hsome => ?_
  · split
    next hc => exact (carries_advance hc).partly.bind fun _ _ => .pure _
    next =>
      exact Carries.ite (fun _ => carries_identifier.partly.bind fun _ _ => .pure _)
        fun _ => .pure _
    next => exact .pure _
  · obtain ⟨⟨lexeme, range⟩, hc⟩ := Option.isSome_iff_exists.1 hsome
    simp only [hp'.current hsome, hc]
    cases lexeme with
    | identifier name => simp only [identifierFollows_of_begins hp' hc (hnext name range hc)]
    | keyword word => cases word <;> rfl
    | _ => rfl

/-- If a name is read, with or without a type, and more follows, then a token follows the first. -/
theorem isSome_moved {type : Option TypeRef} {ident : Ident} {q r : Parser}
    (htype : typeRef? p = .ok type q) (hident : identifier q = .ok ident r)
    (hsome : r.current.isSome) (hc : p.current = some t) :
    p.moved.current.isSome := by
  obtain ⟨ts, hp, -⟩ := takes_typeRef? p type q htype
  obtain ⟨us, hq, rfl, -⟩ := takes_identifier ident r hident
  obtain ⟨u, hr⟩ := Option.isSome_iff_exists.1 hsome
  rw [hq, Parser.ahead_of_current hr, Parser.ahead_of_current hc] at hp
  cases ts with
  | nil =>
    have hnext := (List.cons.inj hp).2
    simp [Parser.moved, hnext]
  | cons v vs =>
    have hnext := (List.cons.inj hp).2
    cases vs <;> simp [Parser.moved, hnext]

/-- A name with or without a type before it. The type is told from the name by the token that
follows, so something must follow the name. -/
theorem carries_typed {k k' : Option TypeRef → Ident → Parse β} {c : β → Bool}
    (hk : ∀ type ident q, Carries rest c (k type ident) (k' type ident) q) :
    Carries rest c (typeRef? >>= fun type => identifier >>= k type)
      (typeRef? >>= fun type => identifier >>= k' type) p := by
  intro b r hrun hend
  have htype : Partly rest typeRef? typeRef? p := by
    refine carries_typeRef? fun name range hc => ?_
    obtain ⟨type, q, htype, hnext⟩ := ok_of_bind hrun
    obtain ⟨ident, q', hident, hlast⟩ := ok_of_bind hnext
    exact isSome_moved htype hident (hk type ident q' b r hlast hend).1 hc
  exact htype.bind (fun type q => carries_identifier.partly.bind (hk type)) b r hrun hend

/-! ## Repetition -/

section

variable {item item' : Parse α} {stop : Parser → Bool}
  (hstop : ∀ {p p' : Parser}, p.Begins rest p' → p.current.isSome → stop p' = stop p)

include hstop

/-- Items are read up to a sign that they are over, so the text does not end with the last item. -/
theorem carries_itemsUntil {n n' : Nat} (hn : n ≤ n') (h : ∀ q, Partly rest item item' q) :
    Partly rest (itemsUntil stop item n) (itemsUntil stop item' n') p := by
  induction n generalizing n' p with
  | zero => exact carries_stalled
  | succ n ih =>
    obtain ⟨n', rfl⟩ : ∃ m, n' = m + 1 := ⟨n' - 1, by omega⟩
    rw [itemsUntil, itemsUntil]
    refine Carries.get (Carries.ite (fun _ => .pure []) fun _ => ?_) fun p' hp' hsome => ?_
    · exact (h p).bind fun x q => (ih (Nat.le_of_succ_le_succ hn)).bind fun xs q => .pure (x :: xs)
    · rw [hstop hp' hsome]

theorem carries_separatedItems {n n' : Nat} (hn : n ≤ n') (text : String)
    (h : ∀ q, Partly rest item item' q) :
    Partly rest (separatedItems item stop (accept text) n)
      (separatedItems item' stop (accept text) n') p := by
  induction n generalizing n' p with
  | zero => exact carries_stalled
  | succ n ih =>
    obtain ⟨n', rfl⟩ : ∃ m, n' = m + 1 := ⟨n' - 1, by omega⟩
    rw [separatedItems, separatedItems]
    refine (h p).bind fun x q =>
      Carries.get (Carries.ite (fun _ => .pure [x]) fun _ => ?_) fun p' hp' hsome => ?_
    · refine (carries_accept text).bind fun more q => Carries.ite (fun _ => ?_) fun _ =>
        carries_failExpected
      exact (ih (Nat.le_of_succ_le_succ hn)).bind fun xs q => .pure (x :: xs)
    · rw [hstop hp' hsome]

/-- A list with separators is read up to the token that ends it. -/
theorem carries_separated {n n' : Nat} (hn : n ≤ n') (text : String)
    (h : ∀ q, Partly rest item item' q) :
    Partly rest (separated item stop (accept text) n)
      (separated item' stop (accept text) n') p := by
  refine Carries.get (Carries.ite (fun _ => .pure []) fun _ => ?_) fun p' hp' hsome => ?_
  · exact carries_separatedItems hstop hn text h
  · rw [hstop hp' hsome]

end

/-! ## Expressions -/

section

variable {ops : OperatorTable} {n n' : Nat}

/-- The functions for expressions, with two bounds. -/
structure CarriesExpr (rest : List Token) (ops : OperatorTable) (n n' : Nat) : Prop where
  le : n ≤ n'
  binary : ∀ bound q, Partly rest (binary ops n bound) (binary ops n' bound) q
  climb : ∀ e bound q, Partly rest (climb ops n e bound) (climb ops n' e bound) q
  operand : ∀ q, Partly rest (operand ops n) (operand ops n') q
  suffixes : ∀ e q, Partly rest (suffixes ops n e) (suffixes ops n' e) q
  primary : ∀ q, Partly rest (primary ops n) (primary ops n') q

variable (ih : CarriesExpr rest ops n n')

include ih

/-- The climb over infix operators looks at the token after each operand. -/
theorem carries_climb (e : Expr) (bound : Nat) :
    Partly rest (climb ops (n + 1) e bound) (climb ops (n' + 1) e bound) p := by
  simp only [climb]
  refine Carries.get ?_ fun p' hp' hsome => by simp only [ruleHere?, hp'.operator? hsome]
  cases hrule : ruleHere? ops p with
  | none => exact .pure e
  | some rule =>
    obtain ⟨text, hop, -⟩ := Option.bind_eq_some_iff.1 hrule
    have hc := current_of_operator? hop
    simp only
    split
    · exact .pure e
    · refine (carries_advance hc).partly.bind fun _ q => ?_
      cases rule with
      | ternary =>
        refine (ih.binary _ q).bind fun _ q => (carries_punctuation _).partly.bind fun _ q => ?_
        exact (ih.binary _ q).bind fun _ q => ih.climb _ _ q
      | binary op => exact (ih.binary _ q).bind fun _ q => ih.climb _ _ q

theorem carries_operand : Partly rest (operand ops (n + 1)) (operand ops (n' + 1)) p := by
  simp only [operand]
  refine Carries.get ?_ fun p' hp' hsome => by
    simp only [beforeHere?, hp'.operator? hsome, hp'.place hsome]
  cases hop : beforeHere? ops p with
  | some op =>
    obtain ⟨text, htext, -⟩ := Option.bind_eq_some_iff.1 hop
    have hc := current_of_operator? htext
    exact (carries_advance hc).partly.bind fun _ q => (ih.operand q).bind fun inner _ => .pure _
  | none => exact (ih.primary p).bind fun inner q => ih.suffixes inner q

/-- Suffixes are read as long as the next token starts one. -/
theorem carries_suffixes (e : Expr) :
    Partly rest (suffixes ops (n + 1) e) (suffixes ops (n' + 1) e) p := by
  simp only [suffixes]
  refine Carries.get ?_ fun p' hp' hsome => by
    simp only [suffixHere?, hp'.operator? hsome, hp'.place hsome]
  cases hop : suffixHere? ops p with
  | none => exact .pure e
  | some suffix =>
    obtain ⟨text, htext, -⟩ := Option.bind_eq_some_iff.1 hop
    have hc := current_of_operator? htext
    refine (carries_advance hc).partly.bind fun _ q => ?_
    cases suffix with
    | step op => exact ih.suffixes _ q
    | call =>
      refine (carries_separated (fun hp hsome => hp.isPunctuation hsome _) ih.le ","
        (ih.binary 0)).bind
        fun _ q => ?_
      exact (carries_punctuation _).partly.bind fun _ q => ih.suffixes _ q
    | subscript =>
      refine (ih.binary _ q).bind fun _ q => ?_
      exact (carries_punctuation _).partly.bind fun _ q => ih.suffixes _ q
    | member => exact carries_identifier.partly.bind fun _ q => ih.suffixes _ q

theorem carries_primary : Partly rest (primary ops (n + 1)) (primary ops (n' + 1)) p := by
  simp only [primary]
  refine Carries.get ?_ fun p' hp' hsome => by simp only [hp'.current hsome]
  cases hc : p.current with
  | none => exact carries_failExpectedExpr
  | some t =>
    simp only
    cases hliteral : literalOf? t with
    | error e => exact carries_throw
    | ok value =>
      cases value with
      | some value => exact (carries_advance hc).partly.bind fun _ _ => .pure _
      | none =>
        simp only
        split
        · exact carries_identifier.partly.bind fun _ _ => .pure _
        · refine (carries_advance hc).partly.bind fun _ q => (ih.binary _ q).bind fun _ q => ?_
          exact (carries_punctuation _).partly.bind fun _ _ => .pure _
        · exact carries_failExpectedExpr

end

/-- Expressions are carried over, with as many steps or more, if they do not come to the end : they
look at the token that follows. -/
theorem carriesExpr {ops : OperatorTable} {n n' : Nat} (hn : n ≤ n') :
    CarriesExpr rest ops n n' := by
  induction n generalizing n' with
  | zero =>
    exact ⟨hn, fun _ _ => carries_stalled, fun _ _ _ => carries_stalled, fun _ => carries_stalled,
        fun _ _ => carries_stalled, fun _ => carries_stalled⟩
  | succ n ih =>
    obtain ⟨n', rfl⟩ : ∃ m, n' = m + 1 := ⟨n' - 1, by omega⟩
    have ih := ih (Nat.le_of_succ_le_succ hn)
    exact {
      le := hn
      binary := fun bound q => (ih.operand q).bind fun e q => ih.climb e bound q
      climb := fun e bound q => carries_climb ih e bound
      operand := fun q => carries_operand ih
      suffixes := fun e q => carries_suffixes ih e
      primary := fun q => carries_primary ih }

/-! ## Declarations -/

/-- What forms of statements call back for, with two bounds. A statement may come to the end of the
text unless an `else` could follow it. -/
structure CarriesNested (rest : List Token) (k k' : Nested) : Prop where
  fuel : k.fuel ≤ k'.fuel
  expr : ∀ q, Partly rest k.expr k'.expr q
  stmt : ∀ q, Carries rest (fun s => !s.endsOpen) k.stmt k'.stmt q

theorem blockEnds_of_begins {p p' : Parser} (h : p.Begins rest p') (hsome : p.current.isSome) :
    blockEnds p' = blockEnds p := by
  simp only [blockEnds, h.isPunctuation hsome, h.isEmpty hsome]

/-- A declaration is read as a statement that declares something. -/
theorem ok_of_declaration {stmt : Parse Stmt} {d : Decl} {q : Parser}
    (h : declaration stmt p = .ok d q) :
    ∃ range, stmt p = .ok (.decl d range) q := by
  obtain ⟨p₀, p₁, hget, h⟩ := ok_of_bind h
  obtain ⟨rfl, rfl⟩ := EStateM.Result.ok.inj hget
  obtain ⟨s, r, hstmt, hrest⟩ := ok_of_bind h
  cases s with
  | decl d' range =>
    obtain ⟨rfl, rfl⟩ := EStateM.Result.ok.inj hrest
    exact ⟨range, hstmt⟩
  | _ => cases hrest

/-- A statement that declares something is accepted as a declaration. -/
theorem declaration_of_ok {stmt : Parse Stmt} {d : Decl} {range : Range} {q : Parser}
    (h : stmt p = .ok (.decl d range) q) : declaration stmt p = .ok d q := by
  have hstmt : stmt.Succeeds p fun s r => s = .decl d range ∧ r = q := ⟨_, _, h, rfl, rfl⟩
  have hdecl : (declaration stmt).Succeeds p fun d' r => d' = d ∧ r = q := by
    refine Succeeds.get (hstmt.bind ?_)
    rintro _ r ⟨rfl, rfl⟩
    exact Succeeds.pure ⟨rfl, rfl⟩
  obtain ⟨_, _, hrun, rfl, rfl⟩ := hdecl
  exact hrun

/-- A declaration does not end in a statement that an `else` could follow, so it may come to the
end. -/
theorem carries_declaration {stmt stmt' : Parse Stmt}
    (h : Carries rest (fun s => !s.endsOpen) stmt stmt' p) :
    Fully rest (declaration stmt) (declaration stmt') p := by
  intro d q hrun _
  obtain ⟨range, hstmt⟩ := ok_of_declaration hrun
  obtain ⟨hp, hcarry⟩ := h _ q hstmt (.inl rfl)
  refine ⟨hp, fun p' hp' => ?_⟩
  obtain ⟨q', hstmt', hq'⟩ := hcarry p' hp'
  exact ⟨q', declaration_of_ok hstmt', hq'⟩

section

variable {k k' : Nested} (hk : CarriesNested rest k k')

include hk

/-- A block ends with its brace, so it may come to the end. -/
theorem carries_blockIn (scope : ScopeId) : Fully rest (blockIn k scope) (blockIn k' scope) p := by
  refine (carries_punctuation _).partly.bind fun left q => ?_
  have hinside : Fully rest (within scope do
        let stmts ← itemsUntil blockEnds k.stmt k.fuel
        let right ← punctuation "\x7d"
        return (stmts, right))
      (within scope do
        let stmts ← itemsUntil blockEnds k'.stmt k'.fuel
        let right ← punctuation "\x7d"
        return (stmts, right)) q := by
    refine Carries.within scope ?_
    refine (carries_itemsUntil blockEnds_of_begins hk.fuel fun q => (hk.stmt q).partly).bind
      fun stmts q => ?_
    exact (carries_punctuation _).map fun _ _ => rfl
  let make : List Stmt × Token → Block := fun x => ⟨x.1, scope, left.range.merge x.2.range⟩
  exact hinside.map (g := make) fun _ _ => rfl

theorem carries_block : Fully rest (block k) (block k') p :=
  Carries.opening _ _ fun id _ => carries_blockIn hk id

theorem carries_initialValue (constant : Bool) :
    Partly rest (initialValue k constant) (initialValue k' constant) p := by
  refine (carries_accept "=").bind fun found q => Carries.ite (fun _ => ?_) fun _ => ?_
  · exact (hk.expr q).functorMap fun _ h => h
  · exact Carries.ite (fun _ => carries_failExpected) fun _ => .pure none

/-- The declaration of a variable ends with its semicolon. -/
theorem carries_variableDecl (constant : Bool) :
    Fully rest (variableDecl k constant) (variableDecl k' constant) p := by
  refine (carries_word _).partly.bind fun start q => carries_typed fun type ident q => ?_
  refine (carries_declare ident).bind fun id q =>
    (carries_initialValue hk constant).bind fun init q => ?_
  let make : Token → ScopeId → Variable := fun stop scope => {
    id := id, ident := ident, type := type, init := init, constant := constant, scope := scope
    range := start.range.merge stop.range }
  exact (carries_punctuation _).result (g := make) fun _ _ _ => rfl

omit hk in
theorem carries_param : Partly rest param param p := by
  refine carries_typed fun type ident q => ?_
  let make : DeclId → ScopeId → Variable := fun id scope => {
    id := id, ident := ident, type := type, init := none, constant := false, scope := scope
    range := paramRange type ident }
  exact (carries_declare ident).result (g := make) fun _ _ h => h

theorem carries_params : Partly rest (params k) (params k') p := by
  refine (carries_punctuation _).partly.bind fun _ q => ?_
  have hvars : Partly rest (separated param (·.isPunctuation ")") (accept ",") k.fuel)
      (separated param (·.isPunctuation ")") (accept ",") k'.fuel) q :=
    carries_separated (fun hp hsome => hp.isPunctuation hsome _) hk.fuel "," fun q => carries_param
  exact hvars.bind fun vars q => (carries_punctuation _).partly.bind fun _ q => .pure vars

/-- The declaration of a function ends with the brace of its body. -/
theorem carries_funcDecl : Fully rest (funcDecl k) (funcDecl k') p := by
  refine (carries_word _).partly.bind fun start q => carries_typed fun type ident q => ?_
  refine (carries_declare ident).bind fun id q => ?_
  refine Carries.get (Carries.opening _ _ fun own q => ?_) fun q' hq' _ => by simp only [hq'.scope]
  exact (carries_params hk).bind fun vars q => (carries_blockIn hk own).map fun _ _ => rfl

theorem carries_members : Fully rest (members k) (members k') p := by
  refine (carries_punctuation _).partly.bind fun left q => ?_
  have hitem : ∀ q, Partly rest (declaration k.stmt) (declaration k'.stmt) q :=
    fun q => (carries_declaration (hk.stmt q)).partly
  refine (carries_itemsUntil blockEnds_of_begins hk.fuel hitem).bind fun decls q => ?_
  exact (carries_punctuation _).map fun _ _ => rfl

/-- A class or a namespace ends with the brace of its members. -/
theorem carries_groupDecl (kind : GroupKind) :
    Fully rest (groupDecl kind k) (groupDecl kind k') p := by
  refine (carries_word _).partly.bind fun start q =>
    carries_identifier.partly.bind fun ident q => ?_
  refine (carries_declare ident).bind fun id q => ?_
  refine Carries.get (Carries.opening _ _ fun own r => ?_) fun q' hq' _ => by simp only [hq'.scope]
  let make : List Decl × Range → Group := fun x => {
    kind := kind, id := id, ident := ident, members := x.1, membersRange := x.2, scope := q.scope
    ownScope := own, range := start.range.merge x.2 }
  exact (carries_members hk).map (g := make) fun _ _ => rfl

/-! ## Statements -/

theorem carries_condition : Fully rest (condition k) (condition k') p := by
  refine (carries_punctuation _).partly.bind fun _ q => (hk.expr q).bind fun e q => ?_
  exact (carries_punctuation _).map fun _ _ => rfl

theorem carries_unlessAt (text : String) : Partly rest (unlessAt text k) (unlessAt text k') p := by
  refine Carries.get (Carries.ite (fun _ => .pure none) fun _ => ?_) fun p' hp' hsome => ?_
  · exact (hk.expr p).functorMap fun _ h => h
  · rw [hp'.isPunctuation hsome]

theorem carries_forInit : Partly rest (forInit k) (forInit k') p := by
  refine (carries_accept ";").bind fun found q => Carries.ite (fun _ => .pure none) fun _ => ?_
  exact (hk.stmt q).partly.functorMap fun _ h => h

/-- An `if` without an `else` must not come to the end, because an `else` could follow it. -/
theorem carries_ifForm : Carries rest (fun s => !s.endsOpen) (ifForm k) (ifForm k') p := by
  refine (carries_word _).partly.bind fun start q =>
    (carries_condition hk).partly.bind fun c q => ?_
  refine (hk.stmt q).partly.bind fun whenTrue q => ?_
  refine Carries.get (Carries.ite (fun helse => ?_) fun _ => ?_) fun q' hq' hsome => ?_
  · obtain ⟨t, hc, -⟩ := (Option.any_eq_true _ _).1 helse
    exact (carries_advance hc).partly.bind fun _ q => (hk.stmt q).map fun whenFalse h => h
  · exact .pure_of_eq_false rfl
  · rw [hq'.isIdentifier hsome]

/-- A `while` loop ends as its body does. -/
theorem carries_whileForm : Carries rest (fun s => !s.endsOpen) (whileForm k) (whileForm k') p := by
  refine (carries_word _).partly.bind fun start q =>
    (carries_condition hk).partly.bind fun c q => ?_
  exact (hk.stmt q).map fun body h => h

theorem carries_doForm : Fully rest (doForm k) (doForm k') p := by
  refine (carries_word _).partly.bind fun start q => (hk.stmt q).partly.bind fun body q => ?_
  refine (carries_word _).partly.bind fun _ q => (carries_condition hk).partly.bind fun c q => ?_
  exact (carries_punctuation _).map fun _ _ => rfl

/-- A `for` loop ends as its body does. -/
theorem carries_forForm : Carries rest (fun s => !s.endsOpen) (forForm k) (forForm k') p := by
  refine (carries_word _).partly.bind fun start q => Carries.opening _ _ fun scope q => ?_
  refine (carries_punctuation _).partly.bind fun _ q => (carries_forInit hk).bind fun init q => ?_
  refine (carries_unlessAt hk _).bind fun c q => (carries_punctuation _).partly.bind fun _ q => ?_
  refine (carries_unlessAt hk _).bind fun step q =>
    (carries_punctuation _).partly.bind fun _ q => ?_
  exact (hk.stmt q).map fun body h => h

theorem carries_switchForm : Fully rest (switchForm k) (switchForm k') p := by
  refine (carries_word _).partly.bind fun start q =>
    (carries_condition hk).partly.bind fun subject q => ?_
  exact (carries_block hk).map fun _ _ => rfl

theorem carries_caseForm : Fully rest (caseForm k) (caseForm k') p := by
  refine (carries_word _).partly.bind fun start q => (hk.expr q).bind fun value q => ?_
  exact (carries_punctuation _).map fun _ _ => rfl

omit hk in
theorem carries_wordThen (text mark : String) :
    Fully rest (wordThen text mark) (wordThen text mark) p :=
  (carries_word _).partly.bind fun _ _ => (carries_punctuation _).map fun _ _ => rfl

theorem carries_returnForm : Fully rest (returnForm k) (returnForm k') p := by
  refine (carries_word _).partly.bind fun start q => (carries_unlessAt hk _).bind fun value q => ?_
  exact (carries_punctuation _).map fun _ _ => rfl

/-- An expression as a statement ends with its semicolon. -/
theorem carries_exprStmt : Fully rest (exprStmt k) (exprStmt k') p :=
  (hk.expr p).bind fun _ _ => (carries_punctuation _).map fun _ _ => rfl

/-- Each form of statement may come to the end of the text unless an `else` could follow what it
reads. -/
theorem carries_form {text : String} {form : Form} (hmem : (text, form) ∈ forms) :
    Carries rest (fun s => !s.endsOpen) (form k) (form k') p := by
  simp only [forms, List.mem_cons, List.not_mem_nil, or_false, Prod.mk.injEq] at hmem
  rcases hmem with
    ⟨-, rfl⟩ | ⟨-, rfl⟩ | ⟨-, rfl⟩ | ⟨-, rfl⟩ | ⟨-, rfl⟩ | ⟨-, rfl⟩ | ⟨-, rfl⟩ | ⟨-, rfl⟩ |
    ⟨-, rfl⟩ | ⟨-, rfl⟩ | ⟨-, rfl⟩ | ⟨-, rfl⟩ | ⟨-, rfl⟩ | ⟨-, rfl⟩ | ⟨-, rfl⟩ | ⟨-, rfl⟩
  · exact (carries_variableDecl hk false).functorMap fun _ _ => rfl
  · exact (carries_variableDecl hk true).functorMap fun _ _ => rfl
  · exact (carries_funcDecl hk).functorMap fun _ _ => rfl
  · exact (carries_groupDecl hk .classGroup).functorMap fun _ _ => rfl
  · exact (carries_groupDecl hk .namespaceGroup).functorMap fun _ _ => rfl
  · exact carries_ifForm hk
  · exact carries_whileForm hk
  · exact .of_fully (carries_doForm hk)
  · exact carries_forForm hk
  · exact .of_fully (carries_switchForm hk)
  · exact .of_fully (carries_caseForm hk)
  · exact (carries_wordThen "default" ":").functorMap fun _ _ => rfl
  · exact (carries_wordThen "break" ";").functorMap fun _ _ => rfl
  · exact (carries_wordThen "continue" ";").functorMap fun _ _ => rfl
  · exact .of_fully (carries_returnForm hk)
  · exact (carries_block hk).functorMap fun _ _ => rfl

end

/-- A statement is read in the same way of every longer text, also at the end unless an `else`
could follow. -/
theorem carries_statement {n n' : Nat} (hn : n ≤ n') :
    Carries rest (fun s => !s.endsOpen) (statement .standard n) (statement .standard n') p := by
  induction n generalizing n' p with
  | zero => exact carries_stalled
  | succ n ih =>
    obtain ⟨n', rfl⟩ : ∃ m, n' = m + 1 := ⟨n' - 1, by omega⟩
    have hn := Nat.le_of_succ_le_succ hn
    have hk : CarriesNested rest ⟨n, expression Grammar.standard.operators n, statement .standard n⟩
        ⟨n', expression Grammar.standard.operators n', statement .standard n'⟩ :=
      ⟨hn, fun q => (carriesExpr hn).binary 0 q, fun q => ih hn⟩
    refine Carries.get ?_ fun p' hp' hsome => by simp only [formHere, hp'.formWord? hsome]
    exact formHere_cases (motive := fun form => Carries rest _ (form _) (form _) p) p
      (.of_fully (carries_exprStmt hk)) (carries_form hk)

end Parse

end Rill
