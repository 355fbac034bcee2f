import Rill.Proofs.Closure
import Rill.Proofs.Marks

/-!
# What steps of parsing are made of

Whatever a step of parsing does, it does by a few moves : it takes the current token, enters a name
or a declaration, opens a scope, and looks at the parser (`Parse.MadeIn`). A failure undoes
nothing, and what was done until then stays done, so the moves say what a step leaves whether it
succeeds or fails (`Parse.after`).

Every move takes a parser to a later one (`Parser.Later`) : it is in the same scope, the tokens that
are left are the last ones of those before, and the scopes have grown along some marks. So does
every step that is made of moves (`Parse.MadeIn.later`). To be made of moves is a closed property,
so every statement and every expression is (`Parse.closed_made`).
-/

namespace Rill

namespace Parser

/-- The tokens that a parser has not taken yet. A lexical fault after them is none. -/
def tokens (p : Parser) : List Token :=
  p.current.toList ++ p.upcoming.remaining.filterMap Except.toOption

/-- Without a current token, nothing is left. -/
def Ended (p : Parser) : Prop :=
  p.current = none → p.upcoming.remaining = []

/-- What a parser `p` may have become. -/
structure Later (p q : Parser) : Prop where
  scope : q.scope = p.scope
  tokens : q.tokens <:+ p.tokens
  ended : p.Ended → q.Ended
  grows : p.scope.index < p.scopes.size → ∃ ms, Grows p.scopes p.nextDecl ms q.scopes q.nextDecl

namespace Later

variable {p q r : Parser}

theorem refl (p : Parser) : p.Later p where
  scope := rfl
  tokens := List.suffix_refl _
  ended := id
  grows _ := ⟨[], .done _ _⟩

/-- What a later parser may become, the earlier one may. -/
theorem trans (h : p.Later q) (h' : q.Later r) : p.Later r where
  scope := h'.scope.trans h.scope
  tokens := h'.tokens.trans h.tokens
  ended := h'.ended ∘ h.ended
  grows hscope := by
    obtain ⟨ms, hgrows⟩ := h.grows hscope
    have hscope' : q.scope.index < q.scopes.size := by
      rw [h.scope, hgrows.size_eq]
      omega
    obtain ⟨ms', hgrows'⟩ := h'.grows hscope'
    exact ⟨ms ++ ms', hgrows.append hgrows'⟩

/-- A step in a new scope leads to a later parser once the scope is left again. -/
theorem opened {kind : ScopeKind} {owner : Option DeclId}
    (h :
      ({ p with scopes := (p.scopes.push kind p.scope owner).2, scope := ⟨p.scopes.size⟩ } :
        Parser).Later q) :
    p.Later { q with scope := p.scope } where
  scope := rfl
  tokens := h.tokens
  ended := h.ended
  grows hscope := by
    have hnew : p.scopes.size < (p.scopes.push kind p.scope owner).2.size := by
      rw [ScopeTree.size_push]
      omega
    obtain ⟨ms, hgrows⟩ := h.grows hnew
    exact ⟨_, .opened hscope hgrows⟩

end Later

/-- Moving on leaves the tokens after the current one. -/
theorem tokens_moved (p : Parser) (h : ∀ e, p.upcoming.remaining.head? ≠ some (.error e)) :
    p.moved.tokens = p.upcoming.remaining.filterMap Except.toOption := by
  cases hrest : p.upcoming.remaining with
  | nil => simp [tokens, moved, hrest]
  | cons i rest =>
    cases i with
    | ok t => simp [tokens, moved, hrest, Except.toOption]
    | error e => exact absurd (by rw [hrest]; rfl) (h e)

/-- A parser that takes a token is a later one. -/
theorem later_moved (p : Parser) (h : ∀ e, p.upcoming.remaining.head? ≠ some (.error e)) :
    p.Later p.moved where
  scope := rfl
  tokens := by
    rw [tokens_moved p h]
    exact List.suffix_append _ _
  ended _ hnone := by
    cases hrest : p.upcoming.remaining with
    | nil => simp [moved, hrest]
    | cons i rest =>
      cases i with
      | ok t => simp [moved, hrest] at hnone
      | error e => exact absurd (by rw [hrest]; rfl) (h e)
  grows _ := ⟨[], .done _ _⟩

/-- A parser that finds a fault instead of the next token keeps its tokens. -/
theorem later_fault (p : Parser) {e : LexError} (h : p.upcoming.remaining.head? = some (.error e)) :
    p.Later { p with upcoming := p.upcoming.next.2 } where
  scope := rfl
  tokens := by
    obtain ⟨rest, hrest⟩ := List.head?_eq_some_iff.1 h
    have hfault : (.error e :: rest : List Item).filterMap Except.toOption =
        rest.filterMap Except.toOption := rfl
    simp [tokens, hrest, hfault]
  ended hended hnone := by
    rw [hended hnone] at h
    cases h
  grows _ := ⟨[], .done _ _⟩

end Parser

namespace Parse

variable {α β : Type} {c : ScopeId}

/-- The parser that a step leaves, whether it succeeds or fails. -/
def after (act : Parse α) (p : Parser) : Parser :=
  match act p with
  | .ok _ q => q
  | .error _ q => q

/-- A step whose failure is a result to go on with. -/
def attempt (act : Parse α) : Parse (Except ParseError α) := fun p =>
  match act p with
  | .ok a q => .ok (.ok a) q
  | .error e q => .ok (.error e) q

/-- A step that is made of moves in the scope `c`. -/
inductive MadeIn : ScopeId → {α : Type} → Parse α → Prop
  | pure {c : ScopeId} {α : Type} (a : α) : MadeIn c (Pure.pure a : Parse α)
  | fail {c : ScopeId} {α : Type} (e : Parser →
      ParseError) : MadeIn c (fun p => .error (e p) p : Parse α)
  | get {c : ScopeId} : MadeIn c (MonadState.get : Parse Parser)
  | bind {c : ScopeId} {α β : Type} {act : Parse α} {f : α → Parse β} (hact : MadeIn c act)
      (hf : ∀ a, MadeIn c (f a)) : MadeIn c (act >>= f)
  | attempt {c : ScopeId} {α : Type} {act : Parse α} (hact : MadeIn c act) : MadeIn c (attempt act)
  | advance {c : ScopeId} : MadeIn c advance
  | name {c : ScopeId} (name : String) :
      MadeIn c (modify fun p => { p with names := p.names.insert name } : Parse PUnit)
  | declare {c : ScopeId} (ident : Ident) : MadeIn c (declare ident)
  | within {c : ScopeId} {α : Type} {act : Parse α} (hact : MadeIn c act) : MadeIn c (within c act)
  | opening {c : ScopeId} {α : Type} (kind : ScopeKind) (owner : Option DeclId) {act : ScopeId →
      Parse α}
      (hact : ∀ id, MadeIn id (act id)) : MadeIn c (opening kind owner act)

/-! ## What moves leave -/

section

variable {act : Parse α} {f : α → Parse β} {p q : Parser}

theorem after_ok {a : α} (h : act p = .ok a q) : act.after p = q := by
  simp only [after, h]

theorem after_error {e : ParseError} (h : act p = .error e q) : act.after p = q := by
  simp only [after, h]

theorem after_bind_ok {a : α} (h : act p = .ok a q) : (act >>= f).after p = (f a).after q := by
  simp only [after, Bind.bind, EStateM.bind, h]

theorem after_bind_error {e : ParseError} (h : act p = .error e q) : (act >>= f).after p = q := by
  simp only [after, Bind.bind, EStateM.bind, h]

/-- A failure that is caught leaves the parser that it left before. -/
theorem after_attempt : (attempt act).after p = act.after p := by
  cases h : act p <;> simp only [after, attempt, h]

/-- A step in another scope leaves what it leaves there, with the scope set back. -/
theorem after_within {scope : ScopeId} :
    (Parse.within scope act).after p =
      { act.after { p with scope := scope } with scope := p.scope } := by
  cases h : act { p with scope := scope } <;> simp only [after, Parse.within, h]

/-- A step in a new scope is made with the scope added and leaves it again. -/
theorem after_opening {kind : ScopeKind} {owner : Option DeclId} {act : ScopeId → Parse α} :
    (Parse.opening kind owner act).after p =
      { (act ⟨p.scopes.size⟩).after { p with
          scopes := (p.scopes.push kind p.scope owner).2, scope := ⟨p.scopes.size⟩ } with scope :=
  p.scope } :=
  after_within (p := { p with scopes := (p.scopes.push kind p.scope owner).2 })

end

/-- To advance, past a token or into a fault, leads to a later parser. -/
theorem later_advance (p : Parser) : p.Later (advance.after p) := by
  have heq := advance_eq p
  cases hnext : p.upcoming.remaining.head? with
  | none =>
    rw [hnext] at heq
    rw [after_ok heq]
    exact p.later_moved (by simp [hnext])
  | some i =>
    rw [hnext] at heq
    cases i with
    | ok t =>
      rw [after_ok heq]
      exact p.later_moved (by simp [hnext])
    | error e =>
      rw [after_error heq]
      exact p.later_fault hnext

/-- To declare a name leads to a later parser. -/
theorem later_declare (ident : Ident) (p : Parser) : p.Later ((declare ident).after p) where
  scope := rfl
  tokens := List.suffix_refl _
  ended := id
  grows hscope :=
    ⟨[.declared ⟨⟨p.nextDecl⟩, ident, p.scope, p.scope⟩], .declared hscope (.done _ _)⟩

/-- Whatever comes of a step that is made of moves, it leaves a later parser. -/
theorem MadeIn.later {act : Parse α} (h : MadeIn c act) :
    ∀ {p : Parser}, p.scope = c → p.Later (act.after p) := by
  induction h with
  | pure a => exact fun _ => .refl _
  | fail e => exact fun _ => .refl _
  | get => exact fun _ => .refl _
  | @bind c α β act f _ _ ih ihf =>
    intro p hp
    have hact := ih hp
    cases hrun : act p with
    | ok a q =>
      rw [after_ok hrun] at hact
      rw [after_bind_ok hrun]
      exact hact.trans (ihf a (hact.scope.trans hp))
    | error e q =>
      rw [after_error hrun] at hact
      rw [after_bind_error hrun]
      exact hact
  | attempt _ ih =>
    intro p hp
    rw [after_attempt]
    exact ih hp
  | advance => exact fun _ => later_advance _
  | name name => exact fun {p} _ => { Parser.Later.refl p with }
  | declare ident => exact fun _ => later_declare ident _
  | @within c α act _ ih =>
    rintro p rfl
    rw [after_within]
    have hact := ih (p := p) rfl
    exact { hact with scope := rfl }
  | opening kind owner _ ih =>
    intro p _
    rw [after_opening]
    exact (ih _ rfl).opened

/-- To be made of moves is closed under them. -/
theorem closed_made : Closed @MadeIn where
  tokenClosed _ := {
    pure := .pure
    bind := .bind
    check := fun h hf => MadeIn.get.bind fun p => h.bind fun a => by
      rcases hf p a with hmade | ⟨fault, -, hthrow⟩
      · exact hmade
      · rw [hthrow]
        exact .fail fun _ => ⟨fault, p.place⟩
    advance := .advance
    name := .name }
  declare := .declare
  within := .within
  opening := .opening

end Parse

end Rill
