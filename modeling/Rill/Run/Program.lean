import Rill.Grammar.Program
import Rill.Run.Eval

/-!
# Running programs and scripts

A program binds its declarations and then calls its function `main`. A script executes its
statements in order; a `return` among them ends it with a value, and without one its value is null.
-/

namespace Rill

namespace Eval

/-- The number of steps for runs that should not be cut short. -/
def plenty : Nat := 1000000000000000

/-- Binds declarations in the innermost frame. -/
def declareAll (n : Nat) : List Decl → Eval Unit
  | [] => pure ()
  | d :: rest => do
    declare n true d
    declareAll n rest

/-- The function that a program starts with. -/
def mainFunction : Eval Func := do
  match ← find? "main" with
  | some ⟨.func, .function (.user f)⟩ => return f
  | _ => fail .noMainFunction .unknown

/-- Executes a statement at the outermost level, where functions may be declared. -/
def outerStmt (n : Nat) : Stmt → Eval Flow
  | .decl d _ => do
    declare n true d
    return .normal
  | s => stmt n s

/-- Executes statements at the outermost level up to a `return`. -/
def outerStmts (n : Nat) : List Stmt → Eval Value
  | [] => return .null
  | s :: rest => do
    match ← outerStmt n s with
    | .normal => outerStmts n rest
    | .return v => return v
    | .break range => strayJump .break range
    | .continue range => strayJump .continue range

end Eval

/-- Runs a program in the current frame. -/
def Program.run (n : Nat) (p : Program) : Eval Value := do
  Eval.declareAll n p.decls
  let main ← Eval.mainFunction
  Eval.call n main [] main.range

/-- Runs a script in the current frame. -/
def Script.run (n : Nat) (s : Script) : Eval Value :=
  Eval.outerStmts n s.stmts

end Rill
