import Rill.Syntax.Tree

/-!
# Editing trees

Replacing a child of a node. The range of the node grows to cover its new child; the ranges of the
nodes around it stay as they are.
-/

namespace Rill

/-- A child of an expression that can be replaced. -/
inductive Slot where
  | lhs
  | rhs
  | operand
  | condition
  | inner
  | callee
deriving DecidableEq, Repr

/-- Replaces a child of an expression, if the expression has such a child. -/
def Expr.replace? (e : Expr) (slot : Slot) (child : Expr) : Option Expr :=
  let range := e.range.merge child.range
  match slot, e with
  | .lhs, .binary op _ rhs _ => some (.binary op child rhs range)
  | .rhs, .binary op lhs _ _ => some (.binary op lhs child range)
  | .operand, .unary op _ _ => some (.unary op child range)
  | .condition, .ternary _ a b _ => some (.ternary child a b range)
  | .inner, .paren _ _ => some (.paren child range)
  | .callee, .call _ args _ => some (.call child args range)
  | _, _ => none

/-- Gives a variable an initial value. -/
def Variable.setInit (v : Variable) (init : Expr) : Variable :=
  { v with init := some init, range := v.range.merge init.range }

/-- Gives a function a body. -/
def Func.setBody (f : Func) (body : Block) : Func :=
  { f with body := body, range := f.range.merge body.range }

/-- Adds a statement to a block. -/
def Block.push (b : Block) (s : Stmt) : Block :=
  { b with stmts := b.stmts ++ [s], range := b.range.merge s.range }

/-- An edit of one statement by another. -/
inductive Edit where
  | child (slot : Slot)
  | init
  | body
  | otherwise
  | push
deriving DecidableEq, Repr

/-- Edits a statement by another one, if the edit applies to the two. -/
def Edit.apply? (edit : Edit) (target source : Stmt) : Option Stmt :=
  match edit, target, source with
  | .child slot, .expr e range, .expr new _ => (e.replace? slot new).map (.expr · range)
  | .init, .decl (.var v) range, .expr new _ => some (.decl (.var (v.setInit new)) range)
  | .body, .decl (.func f) range, .block new => some (.decl (.func (f.setBody new)) range)
  | .otherwise, .ifElse c a _ range, new => some (.ifElse c a (some new) (range.merge new.range))
  | .push, .block b, new => some (.block (b.push new))
  | _, _, _ => none

end Rill
