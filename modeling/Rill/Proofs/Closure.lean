import Rill.Grammar.Program
import Rill.Proofs.Stream

/-!
# Closed properties of steps

Whatever a step of parsing does, it does by a few moves : it looks at the parser, takes the current
token, enters a name or a declaration, and opens a scope. If it fails with a fault of its own and
not with a lexical one, it does so where it is or where it started.

A property of steps is closed if it holds of the moves and is kept when steps are put together. What
is closed under the moves that touch no scope (`Parse.TokenClosed`) holds of every expression
(`TokenClosed.expression`). What is closed under all moves (`Parse.Closed`) holds of every statement
(`Closed.statement`), and of programs and scripts.
-/

namespace Rill

/-- Whether a parse fault is a lexical fault that was met while parsing. -/
def ParseFault.isLexical : ParseFault → Bool
  | .lexical _ => true
  | _ => false

namespace Parse

/-- The step fails at the current token of `p`, with a fault that is not lexical. -/
def Refuses {α : Type} (p : Parser) (act : Parse α) : Prop :=
  ∃ fault : ParseFault, fault.isLexical = false ∧ act = throw ⟨fault, p.place⟩

/-- A property of steps that is closed under the moves which take tokens and enter names. -/
structure TokenClosed (R : {α : Type} → Parse α → Prop) : Prop where
  pure : ∀ {α : Type} (a : α), R (Pure.pure a : Parse α)
  bind : ∀ {α β : Type} {act : Parse α} {f : α → Parse β},
    R act → (∀ a, R (f a)) → R (act >>= f)
  /-- A step may fail where it started after it has gone on. -/
  check : ∀ {α β : Type} {act : Parse α} {f : Parser → α → Parse β}, R act →
    (∀ p a, R (f p a) ∨ Refuses p (f p a)) → R (MonadState.get >>= fun p => act >>= f p)
  advance : R advance
  name : ∀ name : String,
    R (modify fun p => { p with names := p.names.insert name } : Parse PUnit)

/-- A property of steps in a scope that is closed under all moves. -/
structure Closed (R : ScopeId → {α : Type} → Parse α → Prop) : Prop where
  tokenClosed : ∀ c, TokenClosed (@R c)
  declare : ∀ {c : ScopeId} (ident : Ident), R c (declare ident)
  within : ∀ {c : ScopeId} {α : Type} {act : Parse α}, R c act → R c (within c act)
  opening : ∀ {c : ScopeId} {α : Type} (kind : ScopeKind) (owner : Option DeclId)
    {act : ScopeId → Parse α}, (∀ id, R id (act id)) → R c (opening kind owner act)

/-- A token that denotes a malformed number is refused where it stands. -/
theorem refuses_of_literalOf? {α : Type} {p : Parser} {t : Token} {e : ParseError}
    (hc : p.current = some t) (h : literalOf? t = .error e) : Refuses p (throw e : Parse α) := by
  have hplace : p.place = t.range := by simp [Parser.place, hc]
  obtain ⟨lexeme, range⟩ := t
  cases lexeme with
  | number text =>
    simp only [literalOf?] at h
    cases hread : Number.read? text with
    | none =>
      simp only [hread, Except.error.injEq] at h
      exact ⟨.invalidNumber text, rfl, by rw [← h, hplace]⟩
    | some value => cases value <;> simp [hread] at h
  | keyword word => cases word <;> cases h
  | _ => cases h

namespace TokenClosed

variable {R : {α : Type} → Parse α → Prop} (hR : TokenClosed @R) {α β : Type}

include hR

/-! ## Steps -/

/-- A step may look at the parser, and fail where it is. -/
theorem look {f : Parser → Parse α} (h : ∀ p, R (f p) ∨ Refuses p (f p)) :
    R (MonadState.get >>= f) :=
  hR.check (f := fun p (_ : Unit) => f p) (hR.pure ()) fun p _ => h p

theorem get {f : Parser → Parse α} (h : ∀ p, R (f p)) : R (MonadState.get >>= f) :=
  hR.look fun p => .inl (h p)

theorem map {act : Parse α} {f : α → β} (h : R act) : R (f <$> act) := by
  rw [map_eq_pure_bind]
  exact hR.bind h fun a => hR.pure (f a)

omit hR in
theorem ite {act other : Parse α} {b : Prop} [Decidable b] (h : R act) (hother : R other) :
    R (if b then act else other) := by
  split
  · exact h
  · exact hother

/-- A step may fail with a fault that is not lexical, at the current token. -/
theorem fail {fault : Parser → ParseFault} (h : ∀ p, (fault p).isLexical = false) :
    R (fun p => .error ⟨fault p, p.place⟩ p : Parse α) :=
  hR.look (f := fun p => (throw (⟨fault p, p.place⟩ : ParseError) : Parse α))
    fun p => .inr ⟨fault p, h p, rfl⟩

theorem failExpected (what : String) : R (failExpected what : Parse α) := hR.fail fun _ => rfl

theorem failExpectedExpr : R (failExpectedExpr : Parse α) := hR.fail fun _ => rfl

theorem stalled : R (stalled : Parse α) := hR.fail fun _ => rfl

/-- To require a token is to look at it and to take it. -/
theorem require (test : Token → Bool) (what : String) : R (require test what) := by
  refine hR.bind (hR.get fun p => ite hR.advance (hR.pure none)) fun t => ?_
  cases t with
  | none => exact hR.failExpected what
  | some t => exact hR.pure t

theorem punctuation (text : String) : R (punctuation text) := hR.require _ _

theorem word (text : String) : R (word text) := hR.require _ _

theorem accept (text : String) : R (accept text) :=
  hR.get fun _ => ite (hR.bind hR.advance fun _ => hR.pure true) (hR.pure false)

theorem identifier : R identifier := by
  refine hR.bind (hR.get fun _ => ite (hR.pure _) (hR.failExpected _)) fun _ => ?_
  refine hR.bind hR.advance fun t => ?_
  cases t with
  | none => exact hR.failExpected _
  | some t => exact hR.bind (hR.name t.lexeme.text) fun _ => hR.pure _

theorem typeRef? : R typeRef? := by
  refine hR.get fun p => ?_
  split
  · exact hR.bind hR.advance fun _ => hR.pure _
  · exact ite (hR.bind hR.identifier fun _ => hR.pure _) (hR.pure _)
  · exact hR.pure _

section

variable {item : Parse α} {stop : Parser → Bool} {separator : Parse Bool}

/-- What holds of an item holds of items up to a stop. -/
theorem itemsUntil (h : R item) (n : Nat) : R (itemsUntil stop item n) := by
  induction n with
  | zero => exact hR.stalled
  | succ n ih =>
    exact hR.get fun _ =>
      ite (hR.pure []) (hR.bind h fun _ => hR.bind ih fun _ => hR.pure _)

theorem separatedItems (h : R item) (hseparator : R separator) (n : Nat) :
    R (separatedItems item stop separator n) := by
  induction n with
  | zero => exact hR.stalled
  | succ n ih =>
    refine hR.bind h fun _ => hR.get fun _ => ite (hR.pure _) (hR.bind hseparator fun _ => ?_)
    exact ite (hR.bind ih fun _ => hR.pure _) (hR.failExpected _)

/-- What holds of items and separators holds of a list. -/
theorem separated (h : R item) (hseparator : R separator) (n : Nat) :
    R (separated item stop separator n) :=
  hR.get fun _ => ite (hR.pure []) (hR.separatedItems h hseparator n)

end

/-! ## Expressions -/

/-- The functions for expressions call each other with one step less. -/
structure Exprs (R : {α : Type} → Parse α → Prop) (ops : OperatorTable) (n : Nat) : Prop where
  binary : ∀ bound, R (binary ops n bound)
  climb : ∀ e bound, R (climb ops n e bound)
  operand : R (operand ops n)
  suffixes : ∀ e, R (suffixes ops n e)
  primary : R (primary ops n)

section

variable {ops : OperatorTable} {n : Nat} (ih : Exprs @R ops n)

include ih

theorem climb (e : Expr) (bound : Nat) : R (climb ops (n + 1) e bound) := by
  simp only [Parse.climb]
  refine hR.get fun p => ?_
  cases ruleHere? ops p with
  | none => exact hR.pure e
  | some rule =>
    refine ite (hR.pure e) (hR.bind hR.advance fun _ => ?_)
    cases rule with
    | ternary =>
      refine hR.bind (ih.binary _) fun _ => hR.bind (hR.punctuation _) fun _ => ?_
      exact hR.bind (ih.binary _) fun _ => ih.climb _ _
    | binary op => exact hR.bind (ih.binary _) fun _ => ih.climb _ _

theorem operand : R (operand ops (n + 1)) := by
  simp only [Parse.operand]
  refine hR.get fun p => ?_
  cases beforeHere? ops p with
  | some op => exact hR.bind hR.advance fun _ => hR.bind ih.operand fun _ => hR.pure _
  | none => exact hR.bind ih.primary fun _ => ih.suffixes _

theorem suffixes (e : Expr) : R (suffixes ops (n + 1) e) := by
  simp only [Parse.suffixes]
  refine hR.get fun p => ?_
  cases suffixHere? ops p with
  | none => exact hR.pure e
  | some suffix =>
    refine hR.bind hR.advance fun _ => ?_
    cases suffix with
    | step op => exact ih.suffixes _
    | call =>
      refine hR.bind (hR.separated (ih.binary 0) (hR.accept ",") n) fun _ => ?_
      exact hR.bind (hR.punctuation _) fun _ => ih.suffixes _
    | subscript =>
      refine hR.bind (ih.binary _) fun _ => ?_
      exact hR.bind (hR.punctuation _) fun _ => ih.suffixes _
    | member => exact hR.bind hR.identifier fun _ => ih.suffixes _

theorem primary : R (primary ops (n + 1)) := by
  simp only [Parse.primary]
  refine hR.look fun p => ?_
  cases hc : p.current with
  | none => exact .inl hR.failExpectedExpr
  | some t =>
    simp only
    cases hliteral : literalOf? t with
    | error e => exact .inr (refuses_of_literalOf? hc hliteral)
    | ok value =>
      refine .inl ?_
      cases value with
      | some value => exact hR.bind hR.advance fun _ => hR.pure _
      | none =>
        simp only
        split
        · exact hR.bind hR.identifier fun _ => hR.pure _
        · refine hR.bind hR.advance fun _ => hR.bind (ih.binary _) fun _ => ?_
          exact hR.bind (hR.punctuation _) fun _ => hR.pure _
        · exact hR.failExpectedExpr

end

/-- A closed property holds of the functions for expressions, whatever the bound on their steps. -/
theorem exprs (ops : OperatorTable) (n : Nat) : Exprs @R ops n := by
  induction n with
  | zero => constructor <;> intros <;> exact hR.stalled
  | succ n ih =>
    exact {
      binary := fun bound => hR.bind ih.operand fun e => ih.climb e bound
      climb := hR.climb ih
      operand := hR.operand ih
      suffixes := hR.suffixes ih
      primary := hR.primary ih }

theorem expression (ops : OperatorTable) (n : Nat) : R (expression ops n) :=
  (hR.exprs ops n).binary 0

/-! ## Parts of statements with expressions only -/

section

variable {k : Nested} (hexpr : R k.expr)

include hexpr

theorem initialValue (constant : Bool) : R (initialValue k constant) :=
  hR.bind (hR.accept "=") fun _ =>
    ite (hR.map hexpr) (ite (hR.failExpected _) (hR.pure none))

theorem condition : R (condition k) := by
  refine hR.bind (hR.punctuation _) fun _ => hR.bind hexpr fun _ => ?_
  exact hR.bind (hR.punctuation _) fun _ => hR.pure _

theorem unlessAt (text : String) : R (unlessAt text k) :=
  hR.get fun _ => ite (hR.pure none) (hR.map hexpr)

end

theorem wordThen (text mark : String) : R (wordThen text mark) :=
  hR.bind (hR.word _) fun _ => hR.bind (hR.punctuation _) fun _ => hR.pure _

/-- A statement that is no declaration is refused where it starts. -/
theorem declaration {stmt : Parse Stmt} (h : R stmt) : R (declaration stmt) := by
  refine hR.check h fun p s => ?_
  cases s with
  | decl d range => exact .inl (hR.pure d)
  | _ => exact .inr ⟨_, rfl, rfl⟩

end TokenClosed

/-! ## Statements -/

/-- The form of the current token is that of an expression or one of the forms of the language. -/
theorem formHere_cases {motive : Form → Prop} (p : Parser) (hexpr : motive exprStmt)
    (hforms : ∀ {text : String} {form : Form}, (text, form) ∈ forms → motive form) :
    motive (formHere .standard p) := by
  unfold formHere
  cases hform : p.formWord?.bind Grammar.standard.form? with
  | none => exact hexpr
  | some form =>
    obtain ⟨text, -, hlookup⟩ := Option.bind_eq_some_iff.1 hform
    obtain ⟨l₁, l₂, hl, -⟩ := List.lookup_eq_some_iff.1 hlookup
    have hmem : (text, form) ∈ Grammar.standard.forms := by simp [hl]
    exact hforms hmem

namespace Closed

variable {R : ScopeId → {α : Type} → Parse α → Prop} (hR : Closed @R) {c : ScopeId}

/-- The property holds, in every scope, of what a form calls back for. -/
structure Nests (R : ScopeId → {α : Type} → Parse α → Prop) (k : Nested) : Prop where
  expr : ∀ c, R c k.expr
  stmt : ∀ c, R c k.stmt

include hR

section

variable {k : Nested} (hk : Nests @R k)

theorem param : R c param := by
  have hc := hR.tokenClosed c
  refine hc.bind hc.typeRef? fun _ => hc.bind hc.identifier fun ident => ?_
  exact hc.bind (hR.declare ident) fun _ => hc.get fun _ => hc.pure _

theorem params : R c (params k) := by
  have hc := hR.tokenClosed c
  refine hc.bind (hc.punctuation _) fun _ => ?_
  refine hc.bind (hc.separated hR.param (hc.accept ",") _) fun _ => ?_
  exact hc.bind (hc.punctuation _) fun _ => hc.pure _

include hk

/-- A block in a scope is made in that scope. -/
theorem blockIn : R c (blockIn k c) := by
  have hc := hR.tokenClosed c
  refine hc.bind (hc.punctuation _) fun _ => hc.bind (hR.within ?_) fun _ => hc.pure _
  refine hc.bind (hc.itemsUntil (hk.stmt c) _) fun _ => ?_
  exact hc.bind (hc.punctuation _) fun _ => hc.pure _

theorem block : R c (block k) := hR.opening _ _ fun _ => hR.blockIn hk

theorem variableDecl (constant : Bool) : R c (variableDecl k constant) := by
  have hc := hR.tokenClosed c
  refine hc.bind (hc.word _) fun _ => hc.bind hc.typeRef? fun _ => ?_
  refine hc.bind hc.identifier fun ident => hc.bind (hR.declare ident) fun _ => ?_
  refine hc.bind (hc.initialValue (hk.expr c) constant) fun _ => ?_
  exact hc.bind (hc.punctuation _) fun _ => hc.get fun _ => hc.pure _

/-- A function is made in the scope around it, and its parameters and body in its own. -/
theorem funcDecl : R c (funcDecl k) := by
  have hc := hR.tokenClosed c
  refine hc.bind (hc.word _) fun _ => hc.bind hc.typeRef? fun _ => ?_
  refine hc.bind hc.identifier fun ident => hc.bind (hR.declare ident) fun _ => hc.get fun _ => ?_
  refine hR.opening _ _ fun own => (hR.tokenClosed own).bind hR.params fun _ => ?_
  exact (hR.tokenClosed own).bind (hR.blockIn hk) fun _ => (hR.tokenClosed own).pure _

theorem members : R c (members k) := by
  have hc := hR.tokenClosed c
  refine hc.bind (hc.punctuation _) fun _ => ?_
  refine hc.bind (hc.itemsUntil (hc.declaration (hk.stmt c)) _) fun _ => ?_
  exact hc.bind (hc.punctuation _) fun _ => hc.pure _

theorem groupDecl (kind : GroupKind) : R c (groupDecl kind k) := by
  have hc := hR.tokenClosed c
  refine hc.bind (hc.word _) fun _ => hc.bind hc.identifier fun ident => ?_
  refine hc.bind (hR.declare ident) fun _ => hc.get fun _ => hR.opening _ _ fun own => ?_
  exact (hR.tokenClosed own).bind (hR.members hk) fun _ => (hR.tokenClosed own).pure _

theorem ifForm : R c (ifForm k) := by
  have hc := hR.tokenClosed c
  refine hc.bind (hc.word _) fun _ => hc.bind (hc.condition (hk.expr c)) fun _ => ?_
  refine hc.bind (hk.stmt c) fun _ => hc.get fun _ => ?_
  refine TokenClosed.ite (hc.bind hc.advance fun _ => ?_) (hc.pure _)
  exact hc.bind (hk.stmt c) fun _ => hc.pure _

/-- A `for` loop is made in a scope of its own. -/
theorem forForm : R c (forForm k) := by
  refine (hR.tokenClosed c).bind ((hR.tokenClosed c).word _) fun _ => hR.opening _ _ fun own => ?_
  have hown := hR.tokenClosed own
  have hinit : R own (forInit k) :=
    hown.bind (hown.accept ";") fun _ => TokenClosed.ite (hown.pure none) (hown.map (hk.stmt own))
  have hexpr := fun text => hown.unlessAt (hk.expr own) text
  refine hown.bind (hown.punctuation _) fun _ => hown.bind hinit fun _ => ?_
  refine hown.bind (hexpr _) fun _ => hown.bind (hown.punctuation _) fun _ => ?_
  refine hown.bind (hexpr _) fun _ => hown.bind (hown.punctuation _) fun _ => ?_
  exact hown.bind (hk.stmt own) fun _ => hown.pure _

/-- A closed property holds of each form of statement. -/
theorem form {text : String} {form : Form} (h : (text, form) ∈ forms) : R c (form k) := by
  have hc := hR.tokenClosed c
  simp only [forms, List.mem_cons, Prod.mk.injEq, List.not_mem_nil, or_false] at h
  rcases h with
    ⟨-, rfl⟩ | ⟨-, rfl⟩ | ⟨-, rfl⟩ | ⟨-, rfl⟩ | ⟨-, rfl⟩ | ⟨-, rfl⟩ | ⟨-, rfl⟩ | ⟨-, rfl⟩ |
    ⟨-, rfl⟩ | ⟨-, rfl⟩ | ⟨-, rfl⟩ | ⟨-, rfl⟩ | ⟨-, rfl⟩ | ⟨-, rfl⟩ | ⟨-, rfl⟩ | ⟨-, rfl⟩
  · exact hc.map (hR.variableDecl hk false)
  · exact hc.map (hR.variableDecl hk true)
  · exact hc.map (hR.funcDecl hk)
  · exact hc.map (hR.groupDecl hk .classGroup)
  · exact hc.map (hR.groupDecl hk .namespaceGroup)
  · exact hR.ifForm hk
  · refine hc.bind (hc.word _) fun _ => hc.bind (hc.condition (hk.expr c)) fun _ => ?_
    exact hc.bind (hk.stmt c) fun _ => hc.pure _
  · refine hc.bind (hc.word _) fun _ => hc.bind (hk.stmt c) fun _ => ?_
    refine hc.bind (hc.word _) fun _ => hc.bind (hc.condition (hk.expr c)) fun _ => ?_
    exact hc.bind (hc.punctuation _) fun _ => hc.pure _
  · exact hR.forForm hk
  · refine hc.bind (hc.word _) fun _ => hc.bind (hc.condition (hk.expr c)) fun _ => ?_
    exact hc.bind (hR.block hk) fun _ => hc.pure _
  · refine hc.bind (hc.word _) fun _ => hc.bind (hk.expr c) fun _ => ?_
    exact hc.bind (hc.punctuation _) fun _ => hc.pure _
  · exact hc.map (hc.wordThen _ _)
  · exact hc.map (hc.wordThen _ _)
  · exact hc.map (hc.wordThen _ _)
  · refine hc.bind (hc.word _) fun _ => hc.bind (hc.unlessAt (hk.expr c) _) fun _ => ?_
    exact hc.bind (hc.punctuation _) fun _ => hc.pure _
  · exact hc.map (hR.block hk)

end

/-- A closed property holds of statements in every scope, whatever the bound on nesting. -/
theorem statement (n : Nat) (c : ScopeId) : R c (statement .standard n) := by
  have hc := hR.tokenClosed c
  induction n generalizing c with
  | zero => exact hc.stalled
  | succ n ih =>
    have hk : Nests @R (nested .standard n) :=
      ⟨fun c => (hR.tokenClosed c).expression _ n, fun c => ih c (hR.tokenClosed c)⟩
    refine hc.get fun p => formHere_cases (motive := fun form => R c (form _)) p ?_ (hR.form hk)
    exact hc.bind (hk.expr c) fun _ => hc.bind (hc.punctuation _) fun _ => hc.pure _

theorem nested (n : Nat) : Nests @R (nested .standard n) :=
  ⟨fun c => (hR.tokenClosed c).expression _ n, hR.statement n⟩

/-- A closed property holds of scripts. -/
theorem script : R c (script .standard) := by
  have hc := hR.tokenClosed c
  refine hc.get fun p => hc.bind (hc.itemsUntil (hR.statement _ c) _) fun _ => ?_
  exact hc.get fun _ => hc.pure _

/-- A closed property holds of programs. -/
theorem program : R c (program .standard) := by
  have hc := hR.tokenClosed c
  refine hc.get fun p =>
    hc.bind (hc.itemsUntil (hc.declaration (hR.statement _ c)) _) fun _ => ?_
  exact hc.get fun _ => hc.pure _

end Closed

end Parse

end Rill
