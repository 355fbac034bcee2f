import Rill.Proofs.Written

/-!
# Well-shaped trees

An expression is well-shaped if it is the one that precedence and associativity give its
words. The operands of an operator must bind tightly enough : `BinaryRule.leftBound` and
`BinaryRule.rightBound` say how tightly on each side, and `Expr.BindsAt` whether an operand
does. Below operators stand the prefix operators, below these the suffixes and below these
the primary expressions.

The bounds of a rule and those of the rules around it are linked : a rule that may follow the last
operand of another may have the whole on its left (`BinaryRule.leftBound_le_precedence`), and the
other way round (`BinaryRule.lt_rightBound`).

A statement is well-formed if its expressions are well-shaped, its constants and parameters have the
initial values they must have, and every `else` belongs to the nearest `if` (`Stmt.endsOpen`).
-/

namespace Rill

namespace BinaryRule

/-- How a rule is written; a conditional expression by the first of its two marks. -/
def text : BinaryRule → String
  | .ternary => "?"
  | .binary op => op.text

/-- How tightly the left operand of a rule must bind. A chain of a left-associative operator is
grouped to the left, and a condition is no conditional expression itself. -/
def leftBound : BinaryRule → Nat
  | .ternary => ternaryPrecedence + 1
  | .binary op =>
    match op.associativity with
    | .left => op.precedence
    | .right => op.precedence + 1

/-- How tightly the last operand of a rule must bind. -/
def rightBound : BinaryRule → Nat
  | .ternary => ternaryPrecedence
  | .binary op =>
    match op.associativity with
    | .left => op.precedence + 1
    | .right => op.precedence

end BinaryRule

/-- How a suffix is written; a call and a subscript by their opening mark. -/
def Suffix.text : Suffix → String
  | .step op => op.text
  | .call => "("
  | .subscript => "["
  | .member => "."

namespace Expr

/-- The rule at the root of an expression. -/
def rule? : Expr → Option BinaryRule
  | .binary op .. => some (.binary op)
  | .ternary .. => some .ternary
  | _ => none

/-- Whether a prefix operator stands at the root of an expression. -/
def isPrefixed : Expr → Bool
  | .unary op .. => !op.isPost
  | _ => false

/-- The rule at the root of an expression, if there is one, binds at least as tightly as `bound`. -/
def BindsAt (e : Expr) (bound : Nat) : Prop :=
  ∀ rule, e.rule? = some rule → bound ≤ rule.precedence

/-- An expression to which a suffix may be added. -/
def TakesSuffix (e : Expr) : Prop :=
  e.rule? = none ∧ e.isPrefixed = false

end Expr

mutual

/-- The tree is the one that precedence and associativity give its words. -/
def Expr.WellShaped : Expr → Prop
  | .literal .. => True
  | .name _ => True
  | .paren inner _ => inner.WellShaped
  | .unary op operand _ =>
    operand.WellShaped ∧ operand.rule? = none ∧ (op.isPost → operand.isPrefixed = false)
  | .binary op lhs rhs _ =>
    lhs.WellShaped ∧ rhs.WellShaped ∧ lhs.BindsAt (BinaryRule.leftBound (.binary op)) ∧
      rhs.BindsAt (BinaryRule.rightBound (.binary op))
  | .ternary c a b _ =>
    c.WellShaped ∧ a.WellShaped ∧ b.WellShaped ∧ c.BindsAt (BinaryRule.leftBound .ternary)
  | .member object _ _ => object.WellShaped ∧ object.TakesSuffix
  | .subscript object index _ => object.WellShaped ∧ object.TakesSuffix ∧ index.WellShaped
  | .call callee args _ => callee.WellShaped ∧ callee.TakesSuffix ∧ Expr.AllWellShaped args

/-- Every one of some expressions is well-shaped. -/
def Expr.AllWellShaped : List Expr → Prop
  | [] => True
  | e :: rest => e.WellShaped ∧ Expr.AllWellShaped rest

end

namespace Expr

theorem bindsAt_of_rule?_eq_none {e : Expr} (h : e.rule? = none) (bound : Nat) :
    e.BindsAt bound := by
  intro rule hrule
  simp [h] at hrule

theorem bindsAt_of_rule? {e : Expr} {rule : BinaryRule} {bound : Nat} (h : e.rule? = some rule)
    (hb : bound ≤ rule.precedence) : e.BindsAt bound := by
  intro rule' h'
  obtain rfl : rule = rule' := by simpa [h] using h'
  exact hb

theorem TakesSuffix.of_unary {op : UnaryOp} {operand : Expr} {range : Range} (h : op.isPost) :
    (Expr.unary op operand range).TakesSuffix := by
  simp [TakesSuffix, rule?, isPrefixed, h]

end Expr

/-- All right-associative operators have one precedence, just above that of conditional
expressions. -/
theorem BinaryOp.precedence_of_right {op : BinaryOp} (h : op.associativity = .right) :
    op.precedence = ternaryPrecedence + 1 := by
  rcases op with _ | o | o | o | o
  · rfl
  · rfl
  all_goals simp [BinaryOp.associativity, BinaryOp.isAssignment] at h

/-- A left-associative operator binds more tightly than an assignment. -/
theorem BinaryOp.lt_precedence_of_left {op : BinaryOp} (h : op.associativity = .left) :
    ternaryPrecedence + 1 < op.precedence := by
  rcases op with _ | o | o | o | o
  · simp [BinaryOp.associativity, BinaryOp.isAssignment] at h
  · simp [BinaryOp.associativity, BinaryOp.isAssignment] at h
  all_goals cases o <;> decide

namespace BinaryRule

/-- Nothing binds less tightly than a conditional expression. -/
theorem ternaryPrecedence_le (rule : BinaryRule) : ternaryPrecedence ≤ rule.precedence := by
  cases rule with
  | ternary => exact Nat.le_refl _
  | binary op =>
    cases h : op.associativity with
    | left => exact Nat.le_of_lt (Nat.lt_of_succ_lt (BinaryOp.lt_precedence_of_left h))
    | right => simp [precedence, BinaryOp.precedence_of_right h]

theorem precedence_le_rightBound (rule : BinaryRule) : rule.precedence ≤ rule.rightBound := by
  cases rule with
  | ternary => exact Nat.le_refl _
  | binary op =>
    simp only [precedence, rightBound]
    split <;> omega

theorem precedence_le_leftBound (rule : BinaryRule) : rule.precedence ≤ rule.leftBound := by
  cases rule with
  | ternary => exact Nat.le_succ _
  | binary op =>
    simp only [precedence, leftBound]
    split <;> omega

/-- A rule that may follow the last operand of another may have the whole as its left operand. -/
theorem leftBound_le_precedence {rule next : BinaryRule} (h : next.precedence < rule.rightBound) :
    next.leftBound ≤ rule.precedence := by
  have hnext := ternaryPrecedence_le next
  cases rule with
  | ternary =>
    simp only [rightBound] at h
    omega
  | binary op =>
    cases next with
    | ternary =>
      simp only [leftBound, precedence]
      cases hop : op.associativity with
      | left => exact Nat.le_of_lt (BinaryOp.lt_precedence_of_left hop)
      | right => exact Nat.le_of_eq (BinaryOp.precedence_of_right hop).symm
    | binary op' =>
      simp only [precedence, rightBound, leftBound] at h ⊢
      cases hop : op.associativity <;> cases hop' : op'.associativity <;> rw [hop] at h <;>
        simp only at h ⊢
      · omega
      · have := BinaryOp.lt_precedence_of_left hop
        have := BinaryOp.precedence_of_right hop'
        omega
      · have := BinaryOp.precedence_of_right hop
        have := BinaryOp.lt_precedence_of_left hop'
        omega
      · have := BinaryOp.precedence_of_right hop
        have := BinaryOp.precedence_of_right hop'
        omega

/-- A rule that may have another as its left operand may not take the last operand of the other. -/
theorem lt_rightBound {rule next : BinaryRule} (h : next.leftBound ≤ rule.precedence) :
    next.precedence < rule.rightBound := by
  have hrule := precedence_le_rightBound rule
  cases next with
  | ternary => exact Nat.lt_of_succ_le (Nat.le_trans h hrule)
  | binary op' =>
    have hop' := precedence_le_leftBound (.binary op')
    cases rule with
    | ternary =>
      simp only [leftBound, precedence] at h hop'
      cases hassoc : op'.associativity with
      | left =>
        have := BinaryOp.lt_precedence_of_left hassoc
        omega
      | right =>
        have := BinaryOp.precedence_of_right hassoc
        omega
    | binary op =>
      simp only [leftBound, precedence, rightBound] at h ⊢
      cases hop : op.associativity <;> cases hop' : op'.associativity <;> rw [hop'] at h <;>
        simp only at h ⊢
      · omega
      · omega
      · have := BinaryOp.precedence_of_right hop
        have := BinaryOp.lt_precedence_of_left hop'
        omega
      · omega

end BinaryRule

/-! ## Statements -/

/-- Whether a statement ends in an `if` without `else`, so that an `else` after it would
belong to that. -/
@[simp]
def Stmt.endsOpen : Stmt → Bool
  | .ifElse _ _ none _ => true
  | .ifElse _ _ (some whenFalse) _ => whenFalse.endsOpen
  | .whileDo _ body _ => body.endsOpen
  | .forLoop _ _ _ body _ _ => body.endsOpen
  | _ => false

/-- A variable with a well-shaped initial value, if it has one, as a constant must. -/
def Variable.WellFormed (v : Variable) : Prop :=
  (∀ e, v.init = some e → e.WellShaped) ∧ (v.constant → v.init.isSome)

/-- A parameter : a variable without an initial value. -/
def Variable.WellFormedParam (v : Variable) : Prop :=
  v.WellFormed ∧ v.init = none

mutual

/-- All expressions of the statement are well-shaped, its constants have an initial value and its
parameters have none, and no branch before an `else` ends in an `if` without one. -/
def Stmt.WellFormed : Stmt → Prop
  | .expr e _ => e.WellShaped
  | .decl d _ => d.WellFormed
  | .block b => b.WellFormed
  | .ifElse c a b _ =>
    c.WellShaped ∧ a.WellFormed ∧ Stmt.OptWellFormed b ∧ (b.isSome → a.endsOpen = false)
  | .whileDo c body _ => c.WellShaped ∧ body.WellFormed
  | .doWhile body c _ => body.WellFormed ∧ c.WellShaped
  | .forLoop init c step body _ _ =>
    Stmt.OptWellFormed init ∧ (∀ e, c = some e → e.WellShaped) ∧
      (∀ e, step = some e → e.WellShaped) ∧
      body.WellFormed
  | .switch subject body _ => subject.WellShaped ∧ body.WellFormed
  | .caseLabel value _ => value.WellShaped
  | .defaultLabel _ | .continue _ | .break _ => True
  | .return value _ => ∀ e, value = some e → e.WellShaped

/-- A statement that may be missing is well-formed. -/
def Stmt.OptWellFormed : Option Stmt → Prop
  | none => True
  | some s => s.WellFormed

/-- Every one of some statements is well-formed. -/
def Stmt.AllWellFormed : List Stmt → Prop
  | [] => True
  | s :: rest => s.WellFormed ∧ Stmt.AllWellFormed rest

/-- The statements of a block are well-formed. -/
def Block.WellFormed : Block → Prop
  | ⟨stmts, _, _⟩ => Stmt.AllWellFormed stmts

/-- A declaration is well-formed. -/
def Decl.WellFormed : Decl → Prop
  | .var v => v.WellFormed
  | .func f => f.WellFormed
  | .group g => g.WellFormed

/-- Every one of some declarations is well-formed. -/
def Decl.AllWellFormed : List Decl → Prop
  | [] => True
  | d :: rest => d.WellFormed ∧ Decl.AllWellFormed rest

/-- The parameters and the body of a function are well-formed. -/
def Func.WellFormed : Func → Prop
  | ⟨_, _, _, params, body, _, _, _⟩ => (∀ v ∈ params, v.WellFormedParam) ∧ body.WellFormed

/-- The members of a class or a namespace are well-formed. -/
def Group.WellFormed : Group → Prop
  | ⟨_, _, _, members, _, _, _, _⟩ => Decl.AllWellFormed members

end

theorem Expr.AllWellShaped.of_mem :
    ∀ {es : List Expr}, Expr.AllWellShaped es → ∀ e ∈ es, e.WellShaped
  | [], _ => by simp
  | _ :: _, h => List.forall_mem_cons.2 ⟨h.1, of_mem h.2⟩

theorem Stmt.AllWellFormed.of_mem :
    ∀ {ss : List Stmt}, Stmt.AllWellFormed ss → ∀ s ∈ ss, s.WellFormed
  | [], _ => by simp
  | _ :: _, h => List.forall_mem_cons.2 ⟨h.1, of_mem h.2⟩

theorem Decl.AllWellFormed.of_mem :
    ∀ {ds : List Decl}, Decl.AllWellFormed ds → ∀ d ∈ ds, d.WellFormed
  | [], _ => by simp
  | _ :: _, h => List.forall_mem_cons.2 ⟨h.1, of_mem h.2⟩

/-! ## The operators of the language -/

namespace Grammar

/-- A rule stands in the table under its own text. -/
theorem between?_eq_some {text : String} {rule : BinaryRule} :
    standardOperators.between? text = some rule ↔ text = rule.text := by
  constructor
  · intro h
    obtain ⟨l₁, l₂, hl, -⟩ := List.lookup_eq_some_iff.1 h
    have hmem : (text, rule) ∈ standardOperators.between := by simp [hl]
    have hall : ∀ entry ∈ standardOperators.between, entry.1 = entry.2.text := by decide
    exact hall _ hmem
  · rintro rfl
    rcases rule with _ | op
    · rfl
    · rcases op with _ | o | o | o | o
      · rfl
      all_goals cases o <;> rfl

/-- A prefix operator stands in the table under its own text. -/
theorem before?_eq_some {text : String} {op : UnaryOp} :
    standardOperators.before? text = some op ↔ text = op.text ∧ op.isPost = false := by
  constructor
  · intro h
    obtain ⟨l₁, l₂, hl, -⟩ := List.lookup_eq_some_iff.1 h
    have hmem : (text, op) ∈ standardOperators.before := by simp [hl]
    have hall : ∀ entry ∈ standardOperators.before,
        entry.1 = entry.2.text ∧ entry.2.isPost = false := by decide
    exact hall _ hmem
  · rintro ⟨rfl, hpost⟩
    rcases op with _ | _ | _ | o | o
    · rfl
    · rfl
    · rfl
    · cases o <;> rfl
    · simp [UnaryOp.isPost] at hpost

/-- A suffix stands in the table under its own text. -/
theorem after?_eq_some {text : String} {suffix : Suffix} :
    standardOperators.after? text = some suffix ↔
      text = suffix.text ∧ ∀ op, suffix = .step op → op.isPost := by
  constructor
  · intro h
    obtain ⟨l₁, l₂, hl, -⟩ := List.lookup_eq_some_iff.1 h
    have hmem : (text, suffix) ∈ standardOperators.after := by simp [hl]
    simp only [standardOperators, List.mem_cons, Prod.mk.injEq, List.not_mem_nil, or_false] at hmem
    rcases hmem with ⟨rfl, rfl⟩ | ⟨rfl, rfl⟩ | ⟨rfl, rfl⟩ | ⟨rfl, rfl⟩ | ⟨rfl, rfl⟩ <;>
      simp [Suffix.text, UnaryOp.text, Step.text, UnaryOp.isPost]
  · rintro ⟨rfl, hpost⟩
    cases suffix with
    | step op =>
      have hop := hpost op rfl
      cases op with
      | post o => cases o <;> rfl
      | _ => simp [UnaryOp.isPost] at hop
    | _ => rfl

end Grammar

end Rill
