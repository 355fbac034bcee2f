import Rill.Grammar.Table
import Rill.Token.Number

/-!
# Expressions

Expressions are read by precedence climbing. An operand is a chain of operators before a primary
expression and its suffixes; `climb` extends an operand by operators that bind at least as tightly
as a bound. A left-associative operator reads its right operand with the next higher bound, an
assignment with its own. The middle of a conditional expression is read without a bound.
-/

namespace Rill.Parse

/-- Fails because an expression was expected at the current token. -/
def failExpectedExpr {α : Type} : Parse α := fun p => .error ⟨.expectedExpr p.found, p.place⟩ p

/-- The literal that a token denotes; an error if it is a malformed number, nothing if it
is no literal. -/
def literalOf? (t : Token) : Except ParseError (Option Literal) :=
  match t.lexeme with
  | .number text =>
    match Number.read? text with
    | some (.int i) => .ok (some (.int i))
    | some (.float x) => .ok (some (.float x))
    | none => .error ⟨.invalidNumber text, t.range⟩
  | .string s => .ok (some (.string s))
  | .char c => .ok (some (.char c))
  | .keyword (.bool b) => .ok (some (.bool b))
  | .keyword .null => .ok (some .null)
  | _ => .ok none

/-- The bound with which the right operand of an operator is read. -/
def rightBound (op : BinaryOp) : Nat :=
  match op.associativity with
  | .left => op.precedence + 1
  | .right => op.precedence

/-- The rule of the current token between operands. -/
def ruleHere? (ops : OperatorTable) (p : Parser) : Option BinaryRule :=
  p.operator?.bind ops.between?

/-- The operator of the current token before an operand. -/
def beforeHere? (ops : OperatorTable) (p : Parser) : Option UnaryOp := p.operator?.bind ops.before?

/-- The suffix of the current token. -/
def suffixHere? (ops : OperatorTable) (p : Parser) : Option Suffix := p.operator?.bind ops.after?

mutual

/-- An expression whose operators bind at least as tightly as `bound`. -/
def binary (ops : OperatorTable) : Nat → Nat → Parse Expr
  | 0, _ => stalled
  | n + 1, bound => do
    let lhs ← operand ops n
    climb ops n lhs bound

/-- Extends an operand by the operators that bind at least as tightly as `bound`. -/
def climb (ops : OperatorTable) : Nat → Expr → Nat → Parse Expr
  | 0, _, _ => stalled
  | n + 1, lhs, bound => do
    match ruleHere? ops (← get) with
    | none => return lhs
    | some rule =>
      if rule.precedence < bound then return lhs
      else
        let _ ← advance
        match rule with
        | .ternary =>
          let whenTrue ← binary ops n 0
          let _ ← punctuation ":"
          let whenFalse ← binary ops n ternaryPrecedence
          climb ops n (.ofTernary lhs whenTrue whenFalse) bound
        | .binary op =>
          let rhs ← binary ops n (rightBound op)
          climb ops n (.ofBinary op lhs rhs) bound

/-- A primary expression with its suffixes, after any operators before it. -/
def operand (ops : OperatorTable) : Nat → Parse Expr
  | 0 => stalled
  | n + 1 => do
    let p ← get
    match beforeHere? ops p with
    | some op =>
      let _ ← advance
      let inner ← operand ops n
      return .unary op inner (p.place.merge inner.range)
    | none =>
      let inner ← primary ops n
      suffixes ops n inner

/-- Extends an expression by the suffixes that follow. -/
def suffixes (ops : OperatorTable) : Nat → Expr → Parse Expr
  | 0, _ => stalled
  | n + 1, e => do
    let p ← get
    match suffixHere? ops p with
    | none => return e
    | some suffix =>
      let _ ← advance
      match suffix with
      | .step op => suffixes ops n (.unary op e (e.range.merge p.place))
      | .call =>
        let args ← separated (binary ops n 0) (·.isPunctuation ")") (accept ",") n
        let right ← punctuation ")"
        suffixes ops n (.call e args (e.range.merge right.range))
      | .subscript =>
        let index ← binary ops n 0
        let right ← punctuation "]"
        suffixes ops n (.subscript e index (e.range.merge right.range))
      | .member =>
        let field ← identifier
        suffixes ops n (.member e field (e.range.merge field.range))

/-- A literal, a name or an expression in parentheses. -/
def primary (ops : OperatorTable) : Nat → Parse Expr
  | 0 => stalled
  | n + 1 => do
    let p ← get
    match p.current with
    | none => failExpectedExpr
    | some t =>
      match literalOf? t with
      | .error e => throw e
      | .ok (some value) =>
        let _ ← advance
        return .literal value t.range
      | .ok none =>
        match t.lexeme with
        | .identifier _ => return .name (← identifier)
        | .punctuation "(" =>
          let _ ← advance
          let inner ← binary ops n 0
          let right ← punctuation ")"
          return .paren inner (t.range.merge right.range)
        | _ => failExpectedExpr

end

/-- A whole expression. -/
def expression (ops : OperatorTable) (fuel : Nat) : Parse Expr :=
  binary ops fuel 0

end Rill.Parse
