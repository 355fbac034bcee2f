import Rill.Run.Env

/-!
# Evaluation

Operands are evaluated from left to right, but an assignment evaluates its right side before it
looks at its target. `&&`, `||` and `?:` evaluate only what they need. A call runs in a frame of its
own, which holds a slot named `return` and the parameters; its result is what the name `return` is
bound to at the end of the body.

The functions are recursive in a number of steps, which goes down with every nested evaluation and
with every pass of a loop.
-/

namespace Rill.Eval

mutual

/-- Evaluates an expression. -/
def expr : Nat → Expr → Eval Value
  | 0, _ => exhausted
  | _ + 1, .literal value _ => return .ofLiteral value
  | _ + 1, .name ident => lookup ident
  | n + 1, .paren inner _ => expr n inner
  | n + 1, .unary op operand range => do
    if op.isStep then
      let (name, old) ← target operand
      let new ← located range (old.step op)
      set name new
      return if op.isPost then old else new
    else
      located range (Value.unary op (← expr n operand))
  | n + 1, .binary .assign lhs rhs _ => do
    let value ← expr n rhs
    let (name, _) ← target lhs
    set name value
    return value
  | n + 1, .binary (.compound op) lhs rhs range => do
    let value ← expr n rhs
    let (name, old) ← target lhs
    let new ← located range (Value.binary (.arith op) old value)
    set name new
    return new
  | n + 1, .binary (.logical op) lhs rhs _ => do
    let a ← logicalOperand op lhs (← expr n lhs)
    if op.decides a then return .bool a
    else return .bool (← logicalOperand op rhs (← expr n rhs))
  | n + 1, .binary op lhs rhs range => do
    let a ← expr n lhs
    let b ← expr n rhs
    located range (Value.binary op a b)
  | n + 1, .ternary c whenTrue whenFalse _ => do
    if ← condition c (← expr n c) then expr n whenTrue else expr n whenFalse
  | n + 1, .member object field range => do
    located range ((← expr n object).member field.name)
  | n + 1, .subscript object index range => do
    let a ← expr n object
    let b ← expr n index
    located range (a.subscript b)
  | n + 1, .call callee args range => do
    match ← expr n callee with
    | .function .print =>
      print (← exprs n args)
      return .null
    | .function (.user f) => call n f (← exprs n args) range
    | other => fail (.notAFunction other.kind) callee.range

/-- Evaluates an expression that may be missing; null stands for a missing one. -/
def expr? : Nat → Option Expr → Eval Value
  | 0, _ => exhausted
  | _ + 1, none => return .null
  | n + 1, some e => expr n e

/-- Evaluates a condition that may be missing; a missing one holds. -/
def test : Nat → Option Expr → Eval Bool
  | 0, _ => exhausted
  | _ + 1, none => return true
  | n + 1, some e => do condition e (← expr n e)

/-- Evaluates expressions from left to right. -/
def exprs : Nat → List Expr → Eval (List Value)
  | 0, _ => exhausted
  | _ + 1, [] => return []
  | n + 1, e :: rest => do
    let v ← expr n e
    let vs ← exprs n rest
    return v :: vs

/-- Calls a function with evaluated arguments. -/
def call : Nat → Func → List Value → Range → Eval Value
  | 0, _, _, _ => exhausted
  | n + 1, f, args, range =>
    if args.length ≠ f.arity then fail (.argumentCount f.ident.name f.arity args.length) range
    else calling range (run n f args)

/-- Runs the body of a function in a frame of its own. -/
def run : Nat → Func → List Value → Eval Value
  | 0, _, _ => exhausted
  | n + 1, f, args => do
    push
    add resultName ⟨.var, .null⟩ f.range
    bindArgs f.params args
    match ← stmts n f.body.stmts with
    | .break range => strayJump .break range
    | .continue range => strayJump .continue range
    | _ =>
      let value ← result
      pop
      return value

/-- Executes a statement. -/
def stmt : Nat → Stmt → Eval Flow
  | 0, _ => exhausted
  | n + 1, .expr e _ => do
    let _ ← expr n e
    return .normal
  | n + 1, .decl d _ => do
    declare n false d
    return .normal
  | n + 1, .block b => do
    push
    let flow ← stmts n b.stmts
    pop
    return flow
  | n + 1, .ifElse c whenTrue whenFalse _ => do
    if ← condition c (← expr n c) then stmt n whenTrue else stmt? n whenFalse
  | n + 1, .whileDo c body _ => loop n (some c) none body
  | n + 1, .doWhile body c _ => doLoop n body c
  | n + 1, .forLoop init c step body _ _ => do
    push
    let _ ← stmt? n init
    let flow ← loop n c step body
    pop
    return flow
  | n + 1, .switch subject body _ => do
    let v ← expr n subject
    match ← entry n v body.stmts none with
    | none => return .normal
    | some rest =>
      push
      let flow ← stmts n rest
      pop
      return flow.afterSwitch
  | _ + 1, .caseLabel .. => return .normal
  | _ + 1, .defaultLabel _ => return .normal
  | _ + 1, .continue range => return .continue range
  | _ + 1, .break range => return .break range
  | n + 1, .return value _ => do
    let v ← expr? n value
    set resultName v
    return .return v

/-- Executes a statement that may be missing. -/
def stmt? : Nat → Option Stmt → Eval Flow
  | 0, _ => exhausted
  | _ + 1, none => return .normal
  | n + 1, some s => stmt n s

/-- Executes statements up to the first that does not finish normally. -/
def stmts : Nat → List Stmt → Eval Flow
  | 0, _ => exhausted
  | _ + 1, [] => return .normal
  | n + 1, s :: rest => do
    match ← stmt n s with
    | .normal => stmts n rest
    | flow => return flow

/-- A loop that tests its condition before each pass and takes a step after it. -/
def loop : Nat → Option Expr → Option Expr → Stmt → Eval Flow
  | 0, _, _, _ => exhausted
  | n + 1, c, step, body => do
    if ← test n c then
      match (← stmt n body).afterPass with
      | some flow => return flow
      | none =>
        let _ ← expr? n step
        loop n c step body
    else return .normal

/-- A loop that tests its condition after each pass. -/
def doLoop : Nat → Stmt → Expr → Eval Flow
  | 0, _, _ => exhausted
  | n + 1, body, c => do
    match (← stmt n body).afterPass with
    | some flow => return flow
    | none =>
      if ← condition c (← expr n c) then doLoop n body c else return .normal

/-- The statements of a switch from its entry on : the first case whose value equals the subject, or
else the first default. -/
def entry : Nat → Value → List Stmt → Option (List Stmt) → Eval (Option (List Stmt))
  | 0, _, _, _ => exhausted
  | _ + 1, _, [], fallback => return fallback
  | n + 1, subject, s :: rest, fallback => do
    match s with
    | .caseLabel e range =>
      let v ← expr n e
      let equal ← located range (Value.binary (.compare .eq) subject v)
      if equal.bool? = some true then return some (s :: rest)
      else entry n subject rest fallback
    | .defaultLabel _ => entry n subject rest (fallback <|> some (s :: rest))
    | _ => entry n subject rest fallback

/-- Binds a declaration in the innermost frame. Functions are bound only where they are allowed,
classes and namespaces nowhere. -/
def declare : Nat → Bool → Decl → Eval Unit
  | 0, _, _ => exhausted
  | n + 1, _, .var v => do
    let value ← expr? n v.init
    add v.ident.name ⟨if v.constant then .const else .var, value⟩ v.range
  | _ + 1, true, .func f => add f.ident.name ⟨.func, .function (.user f)⟩ f.ident.range
  | _ + 1, _, d => fail (.unknownDeclaration d.kind) d.range

end

end Rill.Eval
