import Rill.Proofs.Closure
import Rill.Proofs.Marks
import Rill.Proofs.Roles

/-!
# The scopes of a text mirror its tree

A parser numbers declarations and opens scopes on its way, and enters a name in its table whenever
it takes an identifier as a name. `Parse.Enters c act post` says what becomes of all this when a
step is made in the scope `c` : the scopes grow along some marks, some names are entered, the parser
is in the scope `c` again, and `post` holds of the result and of what was entered.

An expression enters the names among its roles and no marks (`Parse.enters_expression`). A statement
enters the names among its roles and its marks in `c` (`Parse.enters_statement`). So the scopes of
every text that is read mirror its tree (`Buffer.scopes_mirror`).
-/

namespace Rill

namespace NameTable

/-- Enters names one after another. -/
def enter (t : NameTable) (is : List Ident) : NameTable := is.foldl (fun t i => t.insert i.name) t

/-- Names are entered in sequence. -/
theorem enter_append (t : NameTable) (is js : List Ident) :
    t.enter (is ++ js) = (t.enter is).enter js :=
  List.foldl_append

end NameTable

/-- What is entered while a text is read : the marks of declarations and scopes, and names. -/
structure EntryLog where
  marks : List ScopeMark
  names : List Ident

namespace EntryLog

instance : Append EntryLog := ⟨fun es es' => ⟨es.marks ++ es'.marks, es.names ++ es'.names⟩⟩

@[simp] theorem mk_append (ms ms' : List ScopeMark) (is is' : List Ident) :
    (⟨ms, is⟩ ++ ⟨ms', is'⟩ : EntryLog) = ⟨ms ++ ms', is ++ is'⟩ := rfl

@[simp] theorem marks_append (es es' : EntryLog) : (es ++ es').marks = es.marks ++ es'.marks := rfl

@[simp] theorem names_append (es es' : EntryLog) : (es ++ es').names = es.names ++ es'.names := rfl

@[simp] theorem append_mk_nil (es : EntryLog) : es ++ ⟨[], []⟩ = es := by
  obtain ⟨ms, is⟩ := es
  simp

end EntryLog

/-- What a parser `p` has become by entering something. -/
structure Parser.Entered (p : Parser) (es : EntryLog) (q : Parser) : Prop where
  grows : Grows p.scopes p.nextDecl es.marks q.scopes q.nextDecl
  scope : q.scope = p.scope
  names : q.names = p.names.enter es.names
  /-- The names of declarations have been entered, in the same order. -/
  declared : ((declarations es.marks).map Declared.ident).Sublist es.names

namespace Parser.Entered

/-- Taking a token enters nothing. -/
theorem moved (p : Parser) : p.Entered ⟨[], []⟩ p.moved := ⟨.done _ _, rfl, rfl, .slnil⟩

theorem append {p q r : Parser} {es es' : EntryLog} (h : p.Entered es q) (h' : q.Entered es' r) :
    p.Entered (es ++ es') r where
  grows := h.grows.append h'.grows
  scope := h'.scope.trans h.scope
  names := by
    rw [h'.names, h.names]
    exact (NameTable.enter_append _ _ _).symm
  declared := by simpa using h.declared.append h'.declared

/-- If the tokens of a text play the roles that the entered names have, then the names of
declarations are in the order of the text. -/
theorem inOrder {p q : Parser} {ms : List ScopeMark} {rs : List Role} {ts : List Token}
    (h : p.Entered ⟨ms, Role.idents rs⟩ q) (hserves : Serves ts rs) (hord : InOrder ts) :
    (declarations ms).Pairwise fun d d' => d.ident.range.stop ≤ d'.ident.range.start := by
  have htokens : ((Role.idents rs).map Ident.token).Sublist ts :=
    hserves.freeIdentifiers_eq ▸ hserves.freeIdentifiers_sublist
  have hapart := hord.apart.sublist ((h.declared.map Ident.token).trans htokens)
  rw [List.map_map] at hapart
  exact List.pairwise_map.1 hapart

end Parser.Entered

namespace Parse

variable {α β : Type} {c : ScopeId}

/-- A step that succeeds in the scope `c` has entered something and is in `c` again, and `post`
holds of its result and of what it has entered. -/
def Enters (c : ScopeId) (act : Parse α) (post : α → EntryLog → Prop) : Prop :=
  ∀ p, p.scope = c → c.index < p.scopes.size → ∀ a q, act p = .ok a q →
    ∃ es, p.Entered es q ∧ post a es

/-- A step that enters nothing. -/
def Silent (act : Parse α) : Prop := ∀ p a q, act p = .ok a q → p.Entered ⟨[], []⟩ q

/-! ## Rules -/

section

variable {act other : Parse α} {post : α → EntryLog → Prop}

/-- Steps in sequence enter what the first enters and then what the second does. -/
theorem Enters.bind {f : α → Parse β} {post' : β → EntryLog → Prop} (h : act.Enters c post)
    (hf : ∀ a es, post a es → (f a).Enters c fun b es' => post' b (es ++ es')) :
    (act >>= f).Enters c post' := by
  intro p hscope hsize b r hrun
  obtain ⟨a, q, hact, hnext⟩ := ok_of_bind hrun
  obtain ⟨es, hq, hpost⟩ := h p hscope hsize a q hact
  have hsize' : c.index < q.scopes.size := by
    rw [hq.grows.size_eq]
    omega
  obtain ⟨es', hr, hpost'⟩ := hf a es hpost q (hq.scope.trans hscope) hsize' b r hnext
  exact ⟨es ++ es', hq.append hr, hpost'⟩

theorem Silent.enters (h : act.Silent) : act.Enters c fun _ es => es = ⟨[], []⟩ :=
  fun p _ _ a q hrun => ⟨_, h p a q hrun, rfl⟩

/-- A step that enters nothing may be put in front. -/
theorem Silent.bind {f : α → Parse β} {post' : β → EntryLog → Prop} (h : act.Silent)
    (hf : ∀ a, (f a).Enters c post') : (act >>= f).Enters c post' := by
  refine h.enters.bind ?_
  rintro a _ rfl
  exact hf a

theorem Enters.mono {post' : α → EntryLog → Prop} (h : act.Enters c post)
    (himp : ∀ a es, post a es → post' a es) : act.Enters c post' := by
  intro p hscope hsize a q hrun
  obtain ⟨es, hq, hpost⟩ := h p hscope hsize a q hrun
  exact ⟨es, hq, himp a es hpost⟩

theorem Enters.map {f : α → β} {post' : β → EntryLog → Prop}
    (h : act.Enters c fun a => post' (f a)) : (f <$> act).Enters c post' := by
  intro p hscope hsize b q hrun
  obtain ⟨a, hact, rfl⟩ := ok_of_map hrun
  exact h p hscope hsize a q hact

theorem Enters.pure {a : α} (h : post a ⟨[], []⟩) : (Pure.pure a : Parse α).Enters c post := by
  intro p hscope _ b q hrun
  obtain ⟨rfl, rfl⟩ := EStateM.Result.ok.inj hrun
  exact ⟨⟨[], []⟩, ⟨.done _ _, rfl, rfl, .slnil⟩, h⟩

theorem Enters.get {f : Parser → Parse α} (h : ∀ p, p.scope = c → (f p).Enters c post) :
    (MonadState.get >>= f).Enters c post :=
  fun p hscope => h p hscope p hscope

theorem Enters.ite {b : Prop} [Decidable b] (h : act.Enters c post) (hother : other.Enters c post) :
    (if b then act else other).Enters c post := by
  split
  · exact h
  · exact hother

theorem enters_error {e : Parser → ParseError} :
    Enters c (fun p => .error (e p) p : Parse α) post := by
  rintro p _ _ a q ⟨⟩

/-- The body of a function may be marked at any time. -/
theorem Enters.body (h : act.Enters c fun a es => post a (⟨[.body c c], []⟩ ++ es)) :
    act.Enters c post := by
  intro p hscope hsize a q hrun
  obtain ⟨es, hq, hpost⟩ := h p hscope hsize a q hrun
  exact ⟨⟨_ :: es.marks, es.names⟩, ⟨.body hq.grows, hq.scope, hq.names, hq.declared⟩, hpost⟩

/-- A step that is made in the scope where it starts enters what it enters there. -/
theorem Enters.within (h : act.Enters c post) : (Parse.within c act).Enters c post := by
  rintro p rfl hsize a q hrun
  unfold Parse.within at hrun
  split at hrun
  · rename_i b r hact
    obtain ⟨rfl, rfl⟩ := EStateM.Result.ok.inj hrun
    obtain ⟨es, hr, hpost⟩ := h p rfl hsize b r hact
    exact ⟨es, ⟨hr.grows, rfl, hr.names, hr.declared⟩, hpost⟩
  · cases hrun

/-- A step in a new scope comes after the mark that opens it. -/
theorem Enters.opening {act : ScopeId → Parse α} {kind : ScopeKind} {owner : Option DeclId}
    (h : ∀ id, (act id).Enters id fun a es =>
      post a (⟨[.opened ⟨id, kind, owner, c⟩], []⟩ ++ es)) :
    (Parse.opening kind owner act).Enters c post := by
  rintro p rfl hsize a q hrun
  obtain ⟨t, ht⟩ : ∃ t, t = (p.scopes.push kind p.scope owner).2 := ⟨_, rfl⟩
  have hpush : Parse.within ⟨p.scopes.size⟩ (act ⟨p.scopes.size⟩) { p with scopes := t } =
      .ok a q := by
    rw [ht]
    exact hrun
  unfold Parse.within at hpush
  split at hpush
  · rename_i b r hact
    obtain ⟨rfl, rfl⟩ := EStateM.Result.ok.inj hpush
    have hlt : p.scopes.size < t.size := by
      rw [ht, ScopeTree.size_push]
      omega
    obtain ⟨es, hr, hpost⟩ := h ⟨p.scopes.size⟩ _ rfl hlt b r hact
    exact ⟨⟨_ :: es.marks, es.names⟩, ⟨.opened hsize (ht ▸ hr.grows), rfl, hr.names, hr.declared⟩,
      hpost⟩
  · cases hpush

section

variable {item : Parse α} {stop : Parser → Bool} {separator : Parse Bool}
  {marks : α → List ScopeMark} {names : α → List Ident}
  (h : item.Enters c fun x es => es = ⟨marks x, names x⟩)

include h

/-- Items up to a stop enter what one enters after the other. -/
theorem enters_itemsUntil (n : Nat) :
    (itemsUntil stop item n).Enters c fun xs es => es = ⟨xs.flatMap marks, xs.flatMap names⟩ := by
  induction n with
  | zero => exact enters_error
  | succ n ih =>
    simp only [itemsUntil]
    refine Enters.get fun _ _ => Enters.ite (Enters.pure rfl) (h.bind ?_)
    rintro x _ rfl
    refine ih.bind ?_
    rintro xs _ rfl
    exact Enters.pure (by simp)

/-- A list enters what its items enter, and its separators nothing. -/
theorem enters_separated (hseparator : separator.Silent) (n : Nat) :
    (separated item stop separator n).Enters c fun xs es =>
      es = ⟨xs.flatMap marks, xs.flatMap names⟩ := by
  refine Enters.get fun _ _ => Enters.ite (Enters.pure rfl) ?_
  induction n with
  | zero => exact enters_error
  | succ n ih =>
    simp only [separatedItems]
    refine h.bind ?_
    rintro x _ rfl
    refine Enters.get fun _ _ => Enters.ite (Enters.pure (by simp)) ?_
    refine hseparator.bind fun _ => Enters.ite (ih.bind ?_) enters_error
    rintro xs _ rfl
    exact Enters.pure (by simp)

end

end

/-! ## Steps -/

theorem silent_advance : advance.Silent := by
  intro p a q hrun
  rw [advance_eq] at hrun
  split at hrun
  · cases hrun
  · obtain ⟨rfl, rfl⟩ := EStateM.Result.ok.inj hrun
    exact Parser.Entered.moved p

/-- A mark is no name. -/
theorem silent_punctuation (text : String) : (punctuation text).Silent := by
  intro p a q hrun
  obtain ⟨_, -, -, -, rfl⟩ := takes_punctuation text a q hrun
  exact Parser.Entered.moved p

theorem silent_word (text : String) : (word text).Silent := by
  intro p a q hrun
  obtain ⟨_, -, -, -, rfl⟩ := takes_word text a q hrun
  exact Parser.Entered.moved p

theorem silent_accept (text : String) : (accept text).Silent := by
  intro p a q hrun
  obtain ⟨p, p', hget, hrun⟩ := ok_of_bind hrun
  obtain ⟨rfl, rfl⟩ := EStateM.Result.ok.inj hget
  split at hrun
  · obtain ⟨t, r, hadvance, hrest⟩ := ok_of_bind hrun
    obtain ⟨rfl, rfl⟩ := EStateM.Result.ok.inj hrest
    exact silent_advance p t r hadvance
  · obtain ⟨rfl, rfl⟩ := EStateM.Result.ok.inj hrun
    exact ⟨.done _ _, rfl, rfl, .slnil⟩

/-- An identifier that is taken as a name is entered. -/
theorem enters_identifier : identifier.Enters c fun i es => es = ⟨[], [i]⟩ := by
  intro p _ _ i q hrun
  obtain ⟨_, -, -, rfl⟩ := takes_identifier i q hrun
  exact ⟨⟨[], [i]⟩, ⟨.done _ _, rfl, rfl, List.nil_sublist _⟩, rfl⟩

/-- A declaration is marked with the name that is read before it and the scope it is entered in. -/
theorem enters_named {f : Ident → DeclId → Parse α} {post : α → EntryLog → Prop}
    (h : ∀ ident id, (f ident id).Enters c fun a es =>
      post a (⟨[.declared ⟨id, ident, c, c⟩], [ident]⟩ ++ es)) :
    (identifier >>= fun ident => declare ident >>= f ident).Enters c post := by
  rintro p rfl hsize a r hrun
  obtain ⟨ident, q, hident, hrest⟩ := ok_of_bind hrun
  obtain ⟨id, q', hdeclare, hnext⟩ := ok_of_bind hrest
  obtain ⟨_, -, -, rfl⟩ := takes_identifier ident q hident
  have hq' : p.Entered ⟨[.declared ⟨id, ident, p.scope, p.scope⟩], [ident]⟩ q' := by
    obtain ⟨rfl, rfl⟩ := EStateM.Result.ok.inj hdeclare
    exact ⟨.declared hsize (.done _ _), rfl, rfl, .refl _⟩
  have hsize' : p.scope.index < q'.scopes.size := by
    rw [hq'.grows.size_eq]
    omega
  obtain ⟨es, hr, hpost⟩ := h ident id q' hq'.scope hsize' a r hnext
  exact ⟨_, hq'.append hr, hpost⟩

/-- A type that is named enters its name, a builtin one does not. -/
theorem enters_typeRef? :
    typeRef?.Enters c fun type es => es = ⟨[], Role.idents (TypeRef.roles type)⟩ := by
  unfold typeRef?
  refine Enters.get fun p _ => ?_
  split
  · exact silent_advance.bind fun _ => Enters.pure rfl
  · refine Enters.ite (enters_identifier.bind ?_) (Enters.pure rfl)
    rintro i _ rfl
    exact Enters.pure rfl
  · exact Enters.pure rfl

/-! ## Expressions -/

section

variable {ops : OperatorTable} {n : Nat}

/-- An expression has grown by entering something : its names are those that it had before and those
that were entered, and no marks were. -/
def Extended (e e' : Expr) (es : EntryLog) : Prop :=
  es.marks = [] ∧ Role.idents e'.roles = Role.idents e.roles ++ es.names

/-- The functions for expressions enter the names of what they read. Those that extend an expression
enter the names that it gains. -/
structure EntersExpr (c : ScopeId) (ops : OperatorTable) (n : Nat) : Prop where
  binary : ∀ bound, (binary ops n bound).Enters c fun e es => es = ⟨[], Role.idents e.roles⟩
  climb : ∀ lhs bound, (climb ops n lhs bound).Enters c (Extended lhs)
  operand : (operand ops n).Enters c fun e es => es = ⟨[], Role.idents e.roles⟩
  suffixes : ∀ inner, (suffixes ops n inner).Enters c (Extended inner)
  primary : (primary ops n).Enters c fun e es => es = ⟨[], Role.idents e.roles⟩

/-- The names in arguments are those of one after the other. -/
theorem idents_args (es : List Expr) :
    Role.idents (Expr.argRoles es) = es.flatMap fun e => Role.idents e.roles := by
  induction es with
  | nil => rfl
  | cons e rest ih =>
    cases rest with
    | nil => simp [Expr.argRoles]
    | cons next rest =>
      rw [List.flatMap_cons, ← ih, Expr.argRoles, Role.idents_append, Role.idents_plain]

theorem Extended.refl (e : Expr) : Extended e e ⟨[], []⟩ := ⟨rfl, (List.append_nil _).symm⟩

theorem Extended.eq {e e' : Expr} {es : EntryLog} (h : Extended e e' es) :
    (⟨[], Role.idents e.roles⟩ ++ es : EntryLog) = ⟨[], Role.idents e'.roles⟩ := by
  obtain ⟨ms, is⟩ := es
  obtain ⟨rfl, hnames⟩ := h
  rw [hnames]
  rfl

/-- The climb over infix operators enters the names of the operands that it adds. -/
theorem enters_climb (ih : EntersExpr c ops n) (lhs : Expr) (bound : Nat) :
    (climb ops (n + 1) lhs bound).Enters c (Extended lhs) := by
  simp only [climb]
  refine Enters.get fun p _ => ?_
  cases ruleHere? ops p with
  | none => exact Enters.pure (.refl lhs)
  | some rule =>
    refine Enters.ite (Enters.pure (.refl lhs)) (silent_advance.bind fun _ => ?_)
    cases rule with
    | ternary =>
      refine (ih.binary _).bind ?_
      rintro a _ rfl
      refine (silent_punctuation _).bind fun _ => (ih.binary _).bind ?_
      rintro b _ rfl
      refine (ih.climb _ _).mono fun e es he => ?_
      exact ⟨he.1, by simpa [Expr.ofTernary, Expr.roles] using he.2⟩
    | binary op =>
      refine (ih.binary _).bind ?_
      rintro rhs _ rfl
      refine (ih.climb _ _).mono fun e es he => ?_
      exact ⟨he.1, by simpa [Expr.ofBinary, Expr.roles] using he.2⟩

theorem enters_operand (ih : EntersExpr c ops n) :
    (operand ops (n + 1)).Enters c fun e es => es = ⟨[], Role.idents e.roles⟩ := by
  simp only [operand]
  refine Enters.get fun p _ => ?_
  cases beforeHere? ops p with
  | some op =>
    refine silent_advance.bind fun _ => ih.operand.bind ?_
    rintro inner _ rfl
    refine Enters.pure ?_
    rw [Expr.roles]
    split <;> simp
  | none =>
    refine ih.primary.bind ?_
    rintro inner _ rfl
    exact (ih.suffixes inner).mono fun e es he => he.eq

/-- Suffixes enter the names that they add. -/
theorem enters_suffixes (ih : EntersExpr c ops n) (inner : Expr) :
    (suffixes ops (n + 1) inner).Enters c (Extended inner) := by
  simp only [suffixes]
  refine Enters.get fun p _ => ?_
  cases suffixHere? ops p with
  | none => exact Enters.pure (.refl inner)
  | some suffix =>
    refine silent_advance.bind fun _ => ?_
    cases suffix with
    | step op =>
      refine (ih.suffixes _).mono fun e es he => ⟨he.1, he.2.trans ?_⟩
      rw [Expr.roles]
      split <;> simp
    | call =>
      refine (enters_separated (ih.binary 0) (silent_accept ",") n).bind ?_
      rintro args _ rfl
      refine (silent_punctuation _).bind fun _ => (ih.suffixes _).mono fun e es he => ?_
      exact ⟨by simpa using he.1, by simpa [Expr.roles, idents_args] using he.2⟩
    | subscript =>
      refine (ih.binary _).bind ?_
      rintro index _ rfl
      refine (silent_punctuation _).bind fun _ => (ih.suffixes _).mono fun e es he => ?_
      exact ⟨he.1, by simpa [Expr.roles] using he.2⟩
    | member =>
      refine enters_identifier.bind ?_
      rintro field _ rfl
      refine (ih.suffixes _).mono fun e es he => ?_
      exact ⟨he.1, by simpa [Expr.roles] using he.2⟩

theorem enters_primary (ih : EntersExpr c ops n) :
    (primary ops (n + 1)).Enters c fun e es => es = ⟨[], Role.idents e.roles⟩ := by
  simp only [primary]
  refine Enters.get fun p _ => ?_
  cases p.current with
  | none => exact enters_error
  | some t =>
    simp only
    cases literalOf? t with
    | error e => exact enters_error
    | ok value =>
      cases value with
      | some value => exact silent_advance.bind fun _ => Enters.pure (by simp [Expr.roles])
      | none =>
        simp only
        split
        · refine enters_identifier.bind ?_
          rintro i _ rfl
          exact Enters.pure (by simp [Expr.roles])
        · refine silent_advance.bind fun _ => (ih.binary _).bind ?_
          rintro inner _ rfl
          exact (silent_punctuation _).bind fun _ => Enters.pure (by simp [Expr.roles])
        · exact enters_error

/-- The functions for expressions enter the names of what they read. -/
theorem entersExpr (n : Nat) : EntersExpr c ops n := by
  induction n with
  | zero => constructor <;> intros <;> exact enters_error
  | succ n ih =>
    refine ⟨fun bound => ih.operand.bind ?_, enters_climb ih, enters_operand ih,
      enters_suffixes ih, enters_primary ih⟩
    rintro lhs _ rfl
    exact (ih.climb lhs bound).mono fun e es he => he.eq

/-- An expression enters its names. -/
theorem enters_expression (n : Nat) :
    (expression ops n).Enters c fun e es => es = ⟨[], Role.idents e.roles⟩ :=
  (entersExpr n).binary 0

end

/-! ## Statements -/

theorem idents_params (vs : List Variable) :
    Role.idents (Variable.paramsRoles vs) = vs.flatMap fun v => Role.idents v.paramRoles := by
  induction vs with
  | nil => rfl
  | cons v rest ih =>
    cases rest with
    | nil => simp [Variable.paramsRoles]
    | cons next rest =>
      rw [List.flatMap_cons, ← ih, Variable.paramsRoles, Role.idents_append, Role.idents_plain]

/-- The names in statements are those of one after the other. -/
theorem idents_stmts (ss : List Stmt) :
    Role.idents (Stmt.allRoles ss) = ss.flatMap fun s => Role.idents s.roles := by
  induction ss with
  | nil => rfl
  | cons s ss ih => rw [Stmt.allRoles, Role.idents_append, ih, List.flatMap_cons]

theorem idents_decls (ds : List Decl) :
    Role.idents (Decl.allRoles ds) = ds.flatMap fun d => Role.idents d.roles := by
  induction ds with
  | nil => rfl
  | cons d ds ih => rw [Decl.allRoles, Role.idents_append, ih, List.flatMap_cons]

/-- What a form calls back for : expressions enter their names, statements their names and marks. -/
structure EntersNested (k : Nested) : Prop where
  expr : ∀ c, k.expr.Enters c fun e es => es = ⟨[], Role.idents e.roles⟩
  stmt : ∀ c, k.stmt.Enters c fun s es => es = ⟨s.marks c, Role.idents s.roles⟩

section

variable {k : Nested} (hk : EntersNested k)

include hk

/-- A block in a scope enters what its statements enter there. -/
theorem enters_blockIn :
    (blockIn k c).Enters c fun b es => b.scope = c ∧
      es = ⟨Stmt.allMarks c b.stmts, Role.idents (Stmt.allRoles b.stmts)⟩ := by
  have hinside : (within c do
      let stmts ← itemsUntil blockEnds k.stmt k.fuel
      let right ← punctuation "\x7d"
      return (stmts, right)).Enters c fun r es =>
        es = ⟨Stmt.allMarks c r.1, Role.idents (Stmt.allRoles r.1)⟩ := by
    refine Enters.within ((enters_itemsUntil (hk.stmt c) k.fuel).bind ?_)
    rintro stmts _ rfl
    refine (silent_punctuation _).bind fun right => Enters.pure ?_
    rw [EntryLog.append_mk_nil, Stmt.allMarks_eq_flatMap, idents_stmts]
  refine (silent_punctuation _).bind fun left => hinside.bind ?_
  rintro ⟨stmts, right⟩ _ rfl
  exact Enters.pure ⟨rfl, EntryLog.append_mk_nil _⟩

theorem enters_block :
    (block k).Enters c fun b es => es = ⟨b.marks c, Role.idents b.roles⟩ := by
  refine Enters.opening fun id => (enters_blockIn hk).mono ?_
  rintro ⟨stmts, scope, range⟩ _ ⟨rfl, rfl⟩
  simp [Block.marks, Block.roles]

omit hk in
/-- A declaration enters what the statement enters as which it is read. -/
theorem enters_declaration {stmt : Parse Stmt}
    (hstmt : stmt.Enters c fun s es => es = ⟨s.marks c, Role.idents s.roles⟩) :
    (declaration stmt).Enters c fun d es => es = ⟨d.marks c, Role.idents d.roles⟩ := by
  refine Enters.get fun _ _ => hstmt.bind ?_
  rintro s _ rfl
  cases s with
  | decl d range => exact Enters.pure (by simp [Stmt.marks, Stmt.roles])
  | _ => exact enters_error

theorem enters_initialValue (constant : Bool) :
    (initialValue k constant).Enters c fun e es => es = ⟨[], Role.idents (Expr.initRoles e)⟩ := by
  refine (silent_accept "=").bind fun _ => Enters.ite (hk.expr c).map ?_
  exact Enters.ite enters_error (Enters.pure rfl)

theorem enters_condition :
    (condition k).Enters c fun e es => es = ⟨[], Role.idents e.roles⟩ := by
  refine (silent_punctuation "(").bind fun _ => (hk.expr c).bind ?_
  rintro e _ rfl
  exact (silent_punctuation ")").bind fun _ => Enters.pure (EntryLog.append_mk_nil _)

theorem enters_unlessAt (text : String) :
    (unlessAt text k).Enters c fun e es => es = ⟨[], Role.idents (Expr.roles? e)⟩ :=
  Enters.get fun _ _ => Enters.ite (Enters.pure rfl) (hk.expr c).map

/-- A variable is marked in the scope around it, after its name has been entered and before the
names in its initial value are. -/
theorem enters_variableDecl (constant : Bool) :
    (variableDecl k constant).Enters c fun v es => es = ⟨[v.mark c], Role.idents v.roles⟩ := by
  refine (silent_word _).bind fun start => enters_typeRef?.bind ?_
  rintro type _ rfl
  refine enters_named fun ident id => ?_
  refine (enters_initialValue hk constant).bind ?_
  rintro init _ rfl
  refine (silent_punctuation _).bind fun stop => Enters.get fun p hp => Enters.pure ?_
  simp [Variable.mark, Variable.roles, hp]

omit hk in
theorem enters_param :
    param.Enters c fun v es => es = ⟨[v.mark c], Role.idents v.paramRoles⟩ := by
  refine enters_typeRef?.bind ?_
  rintro type _ rfl
  refine enters_named fun ident id => ?_
  refine Enters.get fun p hp => Enters.pure ?_
  simp [Variable.mark, Variable.paramRoles, hp]

omit hk in
/-- Parameters are marked in the scope of the function. -/
theorem enters_params :
    (params k).Enters c fun vs es =>
      es = ⟨vs.map (Variable.mark c), Role.idents (Variable.paramsRoles vs)⟩ := by
  refine (silent_punctuation _).bind fun _ =>
    (enters_separated enters_param (silent_accept ",") _).bind ?_
  rintro vs _ rfl
  refine (silent_punctuation _).bind fun _ => Enters.pure ?_
  rw [EntryLog.append_mk_nil, idents_params, List.map_eq_flatMap]

/-- A function is marked outside, and its parameters and body in a scope of its own. -/
theorem enters_funcDecl :
    (funcDecl k).Enters c fun f es => es = ⟨f.marks c, Role.idents f.roles⟩ := by
  refine (silent_word _).bind fun start => enters_typeRef?.bind ?_
  rintro type _ rfl
  refine enters_named fun ident id => ?_
  refine Enters.get fun p hp => Enters.opening fun own => enters_params.bind ?_
  rintro vars _ rfl
  refine Enters.body ((enters_blockIn hk).bind ?_)
  rintro ⟨stmts, scope, range⟩ _ ⟨rfl, rfl⟩
  exact Enters.pure (by simp [Func.marks, Func.roles, Block.roles, hp])

/-- A class or a namespace is marked outside and its members inside. -/
theorem enters_groupDecl (kind : GroupKind) :
    (groupDecl kind k).Enters c fun g es => es = ⟨g.marks c, Role.idents g.roles⟩ := by
  have hmembers : ∀ own, (members k).Enters own fun r es =>
      es = ⟨Decl.allMarks own r.1, Role.idents (Decl.allRoles r.1)⟩ := by
    intro own
    refine (silent_punctuation _).bind fun left => ?_
    refine (enters_itemsUntil (enters_declaration (hk.stmt own)) k.fuel).bind ?_
    rintro decls _ rfl
    refine (silent_punctuation _).bind fun right => Enters.pure ?_
    rw [EntryLog.append_mk_nil, Decl.allMarks_eq_flatMap, idents_decls]
  refine (silent_word _).bind fun start => enters_named fun ident id => ?_
  refine Enters.get fun p hp => Enters.opening fun own => (hmembers own).bind ?_
  rintro ⟨decls, range⟩ _ rfl
  exact Enters.pure (by simp [Group.marks, Group.roles, hp])

theorem enters_ifForm :
    (ifForm k).Enters c fun s es => es = ⟨s.marks c, Role.idents s.roles⟩ := by
  refine (silent_word _).bind fun start => (enters_condition hk).bind ?_
  rintro e _ rfl
  refine (hk.stmt c).bind ?_
  rintro whenTrue _ rfl
  refine Enters.get fun _ _ =>
    Enters.ite (silent_advance.bind fun _ => (hk.stmt c).bind ?_) (Enters.pure ?_)
  · rintro whenFalse _ rfl
    exact Enters.pure (by simp [Stmt.marks, Stmt.marks?, Stmt.roles, Stmt.elseRoles])
  · simp [Stmt.marks, Stmt.marks?, Stmt.roles, Stmt.elseRoles]

theorem enters_doForm :
    (doForm k).Enters c fun s es => es = ⟨s.marks c, Role.idents s.roles⟩ := by
  refine (silent_word _).bind fun start => (hk.stmt c).bind ?_
  rintro body _ rfl
  refine (silent_word _).bind fun _ => (enters_condition hk).bind ?_
  rintro e _ rfl
  exact (silent_punctuation _).bind fun _ => Enters.pure (by simp [Stmt.marks, Stmt.roles])

/-- A `for` loop opens a scope for its first part and its body, and enters the names of its parts in
the order in which they are written. -/
theorem enters_forForm :
    (forForm k).Enters c fun s es => es = ⟨s.marks c, Role.idents s.roles⟩ := by
  have hinit : ∀ scope, (forInit k).Enters scope fun s es =>
      es = ⟨Stmt.marks? scope s, Role.idents (Stmt.initRoles s)⟩ := fun scope =>
    (silent_accept ";").bind fun _ => Enters.ite (Enters.pure rfl) (hk.stmt scope).map
  refine (silent_word _).bind fun start => Enters.opening fun scope =>
    (silent_punctuation _).bind fun _ => (hinit scope).bind ?_
  rintro init _ rfl
  refine (enters_unlessAt hk _).bind ?_
  rintro e _ rfl
  refine (silent_punctuation _).bind fun _ => (enters_unlessAt hk _).bind ?_
  rintro step _ rfl
  refine (silent_punctuation _).bind fun _ => (hk.stmt scope).bind ?_
  rintro body _ rfl
  exact Enters.pure (by simp [Stmt.marks, Stmt.roles])

omit hk in
theorem enters_wordThen (text mark : String) :
    (wordThen text mark).Enters c fun _ es => es = ⟨[], []⟩ :=
  (silent_word text).bind fun _ => (silent_punctuation mark).bind fun _ => Enters.pure rfl

/-- Every form enters the marks and the names of the statement that it gives. -/
theorem enters_form {text : String} {form : Form} (h : (text, form) ∈ forms) :
    (form k).Enters c fun s es => es = ⟨s.marks c, Role.idents s.roles⟩ := by
  simp only [forms, List.mem_cons, Prod.mk.injEq, List.not_mem_nil, or_false] at h
  rcases h with
    ⟨-, rfl⟩ | ⟨-, rfl⟩ | ⟨-, rfl⟩ | ⟨-, rfl⟩ | ⟨-, rfl⟩ | ⟨-, rfl⟩ | ⟨-, rfl⟩ | ⟨-, rfl⟩ |
    ⟨-, rfl⟩ | ⟨-, rfl⟩ | ⟨-, rfl⟩ | ⟨-, rfl⟩ | ⟨-, rfl⟩ | ⟨-, rfl⟩ | ⟨-, rfl⟩ | ⟨-, rfl⟩
  · exact (enters_variableDecl hk false).map
  · exact (enters_variableDecl hk true).map
  · exact (enters_funcDecl hk).map
  · exact (enters_groupDecl hk .classGroup).map
  · exact (enters_groupDecl hk .namespaceGroup).map
  · exact enters_ifForm hk
  · refine (silent_word _).bind fun start => (enters_condition hk).bind ?_
    rintro e _ rfl
    refine (hk.stmt c).bind ?_
    rintro body _ rfl
    exact Enters.pure (by simp [Stmt.marks, Stmt.roles])
  · exact enters_doForm hk
  · exact enters_forForm hk
  · refine (silent_word _).bind fun start => (enters_condition hk).bind ?_
    rintro e _ rfl
    refine (enters_block hk).bind ?_
    rintro body _ rfl
    exact Enters.pure (by simp [Stmt.marks, Stmt.roles])
  · refine (silent_word _).bind fun start => (hk.expr c).bind ?_
    rintro value _ rfl
    exact (silent_punctuation _).bind fun _ => Enters.pure (by simp [Stmt.marks, Stmt.roles])
  · exact (enters_wordThen _ _).map
  · exact (enters_wordThen _ _).map
  · exact (enters_wordThen _ _).map
  · refine (silent_word _).bind fun start => (enters_unlessAt hk _).bind ?_
    rintro value _ rfl
    exact (silent_punctuation _).bind fun _ => Enters.pure (by simp [Stmt.marks, Stmt.roles])
  · exact (enters_block hk).map

end

/-- A statement enters its names, and its marks in the scope in which it is read. -/
theorem enters_statement (n : Nat) (c : ScopeId) :
    (statement .standard n).Enters c fun s es => es = ⟨s.marks c, Role.idents s.roles⟩ := by
  induction n generalizing c with
  | zero => exact enters_error
  | succ n ih =>
    have hk : EntersNested (nested .standard n) := ⟨fun _ => enters_expression n, ih⟩
    refine Enters.get fun p _ => formHere_cases (motive := fun form => Enters c (form _) _) p ?_
      (enters_form hk)
    refine (hk.expr c).bind ?_
    rintro e _ rfl
    exact (silent_punctuation _).bind fun _ => Enters.pure (by simp [Stmt.marks, Stmt.roles])

/-- A script has entered its marks and its names. -/
theorem entered_of_script {p q : Parser} {s : Script} (h : script .standard p = .ok s q)
    (hscope : p.scope = c) (hsize : c.index < p.scopes.size) :
    s.scopes = q.scopes ∧ s.names = q.names ∧
      p.Entered ⟨Stmt.allMarks c s.stmts, Role.idents (Stmt.allRoles s.stmts)⟩ q := by
  obtain ⟨p, p', hget, h⟩ := ok_of_bind h
  obtain ⟨rfl, rfl⟩ := EStateM.Result.ok.inj hget
  obtain ⟨stmts, r, hitems, hresult⟩ := ok_of_bind h
  obtain ⟨rfl, rfl⟩ := EStateM.Result.ok.inj hresult
  obtain ⟨_, hq, rfl⟩ :=
    enters_itemsUntil (enters_statement p.fuel c) p.fuel p hscope hsize stmts r hitems
  rw [Stmt.allMarks_eq_flatMap, idents_stmts]
  exact ⟨rfl, rfl, hq⟩

/-- A program has entered its marks and its names. -/
theorem entered_of_program {p q : Parser} {u : Program} (h : program .standard p = .ok u q)
    (hscope : p.scope = c) (hsize : c.index < p.scopes.size) :
    u.scopes = q.scopes ∧ u.names = q.names ∧
      p.Entered ⟨Decl.allMarks c u.decls, Role.idents (Decl.allRoles u.decls)⟩ q := by
  obtain ⟨p, p', hget, h⟩ := ok_of_bind h
  obtain ⟨rfl, rfl⟩ := EStateM.Result.ok.inj hget
  obtain ⟨decls, r, hitems, hresult⟩ := ok_of_bind h
  obtain ⟨rfl, rfl⟩ := EStateM.Result.ok.inj hresult
  have hitem := enters_declaration (enters_statement p.fuel c)
  obtain ⟨_, hq, rfl⟩ := enters_itemsUntil hitem p.fuel p hscope hsize decls r hitems
  rw [Decl.allMarks_eq_flatMap, idents_decls]
  exact ⟨rfl, rfl, hq⟩

end Parse

namespace Buffer

/-- The scopes of a text mirror its tree : they hold the declarations of the tree, numbered in the
order of the text, each in the scope around it, and nothing else; the global scope apart, each
belongs to the one node that opens it, inside the scope around that node. -/
theorem scopes_mirror (b : Buffer) :
    (∀ s, b.script = .ok s → s.scopes.Mirrors (Stmt.allMarks .global s.stmts)) ∧
      ∀ u, b.program = .ok u → u.scopes.Mirrors (Decl.allMarks .global u.decls) := by
  constructor
  · intro s h
    obtain ⟨q, -, hrun⟩ := ok_of_eval h
    obtain ⟨ts, hts, hread, -⟩ := tokens_of_eval Parse.takes_script h
    obtain ⟨hscopes, -, hentered⟩ := Parse.entered_of_script hrun rfl Nat.zero_lt_one
    have hord := inOrder_of_tokens hts
    rw [hscopes]
    exact hentered.grows.mirrors (hentered.inOrder (Stmt.serves_of_allReadFrom hread hord) hord)
  · intro u h
    obtain ⟨q, -, hrun⟩ := ok_of_eval h
    obtain ⟨ts, hts, hread, -⟩ := tokens_of_eval Parse.takes_program h
    obtain ⟨hscopes, -, hentered⟩ := Parse.entered_of_program hrun rfl Nat.zero_lt_one
    have hord := inOrder_of_tokens hts
    rw [hscopes]
    exact hentered.grows.mirrors (hentered.inOrder (Decl.serves_of_allReadFrom hread hord) hord)

/-- A loop opens a scope inside that of its function, and a declaration as its body is
entered there. -/
theorem scopes_mirror_nested : ∃ u,
    (anonymous "func f(a) \x7b for (var i = 0; ; ) var j; \x7d class C \x7b var x; \x7d").program =
      .ok u ∧
      (declarations (Decl.allMarks .global u.decls)).map
        (fun d => (d.ident.name, d.id.index, d.scope.index)) =
        [("f", 0, 0), ("a", 1, 1), ("i", 2, 2), ("j", 3, 2), ("C", 4, 0), ("x", 5, 3)] ∧
      (openings (Decl.allMarks .global u.decls)).map (fun o => (o.id.index, o.outer.index)) =
        [(1, 0), (2, 1), (3, 0)] ∧
      u.scopes.Mirrors (Decl.allMarks .global u.decls) := by
  have hread :
      ((anonymous
        "func f(a) \x7b for (var i = 0; ; ) var j; \x7d class C \x7b var x; \x7d").program.map
        fun u =>
      ((declarations (Decl.allMarks .global u.decls)).map
        (fun d => (d.ident.name, d.id.index, d.scope.index)),
        (openings (Decl.allMarks .global u.decls)).map fun o =>
          (o.id.index, o.outer.index))).toOption =
      some ([("f", 0, 0), ("a", 1, 1), ("i", 2, 2), ("j", 3, 2), ("C", 4, 0), ("x", 5, 3)],
        [(1, 0), (2, 1), (3, 0)]) := by decide +kernel
  cases hu : (anonymous
      "func f(a) \x7b for (var i = 0; ; ) var j; \x7d class C \x7b var x; \x7d").program with
  | error e => simp [hu, Except.map, Except.toOption] at hread
  | ok u =>
    simp only [hu, Except.map, Except.toOption, Option.some.injEq, Prod.mk.injEq] at hread
    exact ⟨u, rfl, hread.1, hread.2, (scopes_mirror _).2 u hu⟩

end Buffer

end Rill
