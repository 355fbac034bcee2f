import Rill.Proofs.Course
import Rill.Run.Program

/-!
# What tasks do

The functions of the evaluator are gone through here, and what holds of every evaluation is proved
without opening them again. `Task.plan` says what a task does, as data. A task starts other tasks,
one after the other, and goes on with what they answer; it may open a frame for them. In the end it
makes a single step, which gives an answer or fails and changes the environment in one place at most
(`Step`), or it drops the frame that it has opened, or it calls a function. Programs and scripts
have plans too; a program looks for the function to start with.

That this is what the evaluator does is `Task.perform_succ`, and that the parts of a task are those
that its plan starts is `Task.parts_eq`. What is claimed of all tasks follows from what holds of
plans, by induction on how a plan is made, and of tasks with fewer steps.
-/

namespace Rill

/-- Whether statements of the kind may add names to the frame in which they are executed. -/
def StmtKind.mayDeclare : StmtKind → Bool
  | .decl | .ifElse | .whileDo | .doWhile => true
  | _ => false

namespace Eval

/-- Whether a task may add names to the innermost frame. -/
def Task.mayDeclare : Task → Bool
  | .stmt s => s.kind.mayDeclare
  | .stmt? _ | .stmts _ | .loop .. | .doLoop .. | .declare .. => true
  | _ => false

/-! ## Plans -/

/-- The last step of a task. Only where the innermost frame may gain names is one bound. -/
inductive Step : Bool → Type → Type 1
  | done {gains : Bool} {α : Type} (a : α) : Step gains α
  | fail {gains : Bool} {α : Type} (e : RuntimeError) : Step gains α
  | lookup {gains : Bool} (ident : Ident) : Step gains Value
  /-- Sets the variable that an expression names to what is made of its value, and answers with
  something made of the old value and the new one. -/
  | update {gains : Bool} (e : Expr) (range : Range) (new : Value → Except RuntimeFault Value)
      (answer : Value → Value → Value) : Step gains Value
  /-- Writes the value of a `return`. -/
  | deliver {gains : Bool} (v : Value) : Step gains Flow
  | bind (name : String) (symbol : Symbol) (range : Range) : Step true Unit
  | print {gains : Bool} (args : List Value) : Step gains Value

/-- Takes the last step of a task. -/
def Step.run {gains : Bool} {α : Type} : Step gains α → Eval α
  | .done a => pure a
  | .fail e => throw (.failed e)
  | .lookup ident => Eval.lookup ident
  | .update e range new answer =>
    target e >>= fun p => located range (new p.2) >>= fun v => set p.1 v >>= fun _ =>
      pure (answer p.2 v)
  | .deliver v => set resultName v >>= fun _ => pure (.return v)
  | .bind name symbol range => add name symbol range
  | .print args => Eval.print args >>= fun _ => pure .null

/-- The innermost frame of a task : the one that it was started in, which may gain names or not, or
one that it has opened and has to drop. -/
inductive Innermost where
  | given (gains : Bool)
  | own

/-- Whether the frame may gain names. -/
def Innermost.gains : Innermost → Bool
  | .given gains => gains
  | .own => true

/-- What is left to be done of a task. -/
inductive Plan : Innermost → Type → Type 1
  | step {gains : Bool} {α : Type} (s : Step gains α) : Plan (.given gains) α
  /-- Starts a task. -/
  | task {i : Innermost} {α : Type} (t : Task) (h : t.mayDeclare = true → i.gains = true)
      (k : t.Answer → Plan i α) : Plan i α
  /-- Opens a frame and starts a task in it. -/
  | framed {gains : Bool} {α : Type} (t : Task) (k : t.Answer → Plan .own α) :
      Plan (.given gains) α
  /-- Drops the frame. -/
  | close {α : Type} (a : α) : Plan .own α
  /-- Runs a function one call deeper. -/
  | call {gains : Bool} (f : Func) (args : List Value) (range : Range) : Plan (.given gains) Value
  /-- Executes the body of a function in a frame of its own. -/
  | invoke {gains : Bool} (f : Func) (args : List Value) : Plan (.given gains) Value
  /-- Looks for the function that a program starts with. -/
  | main {gains : Bool} {α : Type} (k : Func → Plan (.given gains) α) : Plan (.given gains) α

namespace Plan

variable {α β : Type} {gains : Bool} {i : Innermost}

/-- Does what a plan says, with a number of steps for each task. -/
def run (n : Nat) {i : Innermost} {α : Type} : Plan i α → Eval α
  | .step s => s.run
  | .task t _ k => t.perform n >>= fun a => (k a).run n
  | .framed t k => push >>= fun _ => t.perform n >>= fun a => (k a).run n
  | .close a => pop >>= fun _ => pure a
  | .call f args range => calling range (Eval.run n f args)
  | .invoke f args => enter f args >>= fun _ => stmts n f.body.stmts >>= leave
  | .main k => mainFunction >>= fun f => (k f).run n

/-- The tasks that a plan starts, in order. -/
def parts (n : Nat) {i : Innermost} {α : Type} : Plan i α → Env → List (Task × Env)
  | .step _, _ => []
  | .task t _ k, env => t.andThen n env fun a env => (k a).parts n env
  | .framed t k, env => t.andThen n env.opened fun a env => (k a).parts n env
  | .close _, _ => []
  | .call f args _, env =>
    if env.maxCallDepth ≤ env.callDepth then [] else [(.run f args, env.deeper)]
  | .invoke f args, env =>
    match enter f args env with
    | .ok _ env => [(.stmts f.body.stmts, env)]
    | .error _ _ => []
  | .main k, env =>
    match mainFunction env with
    | .ok f env => (k f).parts n env
    | .error _ _ => []

/-- Gives an answer. -/
def done (a : α) : Plan (.given gains) α := .step (.done a)

/-- Fails at a place. -/
def fail (fault : RuntimeFault) (range : Range) : Plan (.given gains) α :=
  .step (.fail ⟨fault, range⟩)

/-- Goes on with the result of an operation on values. -/
def located (range : Range) (r : Except RuntimeFault α) (k : α → Plan (.given gains) β) :
    Plan (.given gains) β :=
  match r with
  | .ok a => k a
  | .error fault => .step (.fail (fault.at range))

/-- Goes on with the truth value of a condition. -/
def condition (c : Expr) (v : Value) (k : Bool → Plan (.given gains) α) : Plan (.given gains) α :=
  match v.bool? with
  | some holds => k holds
  | none => fail (.conditionNotBool v.kind) c.range

/-- Goes on with the truth value of an operand of a logical operator. -/
def operand (op : Logical) (e : Expr) (v : Value) (k : Bool → Plan (.given gains) α) :
    Plan (.given gains) α :=
  match v.bool? with
  | some b => k b
  | none => fail (.unsupportedOperator op.text v.kind) e.range

variable (n : Nat)

theorem run_done (a : α) : (done a : Plan (.given gains) α).run n = pure a := by
  rw [done, run, Step.run]

/-- A plan that goes on with the result of an operation runs the operation first. -/
theorem run_located (range : Range) (r : Except RuntimeFault α) (k : α → Plan (.given gains) β) :
    (located range r k).run n = Eval.located range r >>= fun a => (k a).run n := by
  cases r <;> rfl

theorem run_condition (c : Expr) (v : Value) (k : Bool → Plan (.given gains) α) :
    (condition c v k).run n = Eval.condition c v >>= fun holds => (k holds).run n := by
  unfold condition Eval.condition
  cases v.bool? <;> rfl

theorem run_operand (op : Logical) (e : Expr) (v : Value) (k : Bool → Plan (.given gains) α) :
    (operand op e v k).run n = logicalOperand op e v >>= fun b => (k b).run n := by
  unfold operand logicalOperand
  cases v.bool? <;> rfl

theorem run_ite (c : Prop) [Decidable c] (p q : Plan i α) :
    (if c then p else q).run n = if c then p.run n else q.run n := apply_ite (run n) c p q

variable (env : Env)

theorem parts_done (a : α) : (done a : Plan (.given gains) α).parts n env = [] := by
  rw [done, parts]

theorem parts_located_done (range : Range) (r : Except RuntimeFault α) :
    (located range r done : Plan (.given gains) α).parts n env = [] := by
  cases r <;> rfl

/-- A condition starts nothing; what follows depends on its truth value. -/
theorem parts_condition (c : Expr) (v : Value) (k : Bool → Plan (.given gains) α) :
    (condition c v k).parts n env = v.bool?.elim [] fun holds => (k holds).parts n env := by
  unfold condition
  cases v.bool? <;> rfl

theorem parts_operand (op : Logical) (e : Expr) (v : Value) (k : Bool → Plan (.given gains) α) :
    (operand op e v k).parts n env = v.bool?.elim [] fun b => (k b).parts n env := by
  unfold operand
  cases v.bool? <;> rfl

theorem parts_ite (c : Prop) [Decidable c] (p q : Plan i α) :
    (if c then p else q).parts n env = if c then p.parts n env else q.parts n env :=
  apply_ite (parts n · env) c p q

end Plan

/-! ## The plans of tasks -/

/-- What an expression does. -/
def exprPlan : Expr → Plan (.given false) Value
  | .literal value _ => .done (.ofLiteral value)
  | .name ident => .step (.lookup ident)
  | .paren inner _ => .task (.expr inner) id .done
  | .unary op operand range =>
    if op.isStep then
      .step (.update operand range (·.step op) fun old new => if op.isPost then old else new)
    else .task (.expr operand) id fun v => .located range (Value.unary op v) .done
  | .binary .assign lhs rhs range =>
    .task (.expr rhs) id fun v => .step (.update lhs range (fun _ => .ok v) fun _ _ => v)
  | .binary (.compound op) lhs rhs range =>
    .task (.expr rhs) id fun v =>
      .step (.update lhs range (fun old => Value.binary (.arith op) old v) fun _ new => new)
  | .binary (.logical op) lhs rhs _ =>
    .task (.expr lhs) id fun v => .operand op lhs v fun a =>
      if op.decides a then .done (.bool a)
      else .task (.expr rhs) id fun w => .operand op rhs w fun b => .done (.bool b)
  | .binary op lhs rhs range =>
    .task (.expr lhs) id fun a => .task (.expr rhs) id fun b =>
      .located range (Value.binary op a b) .done
  | .ternary c whenTrue whenFalse _ =>
    .task (.expr c) id fun v => .condition c v fun holds =>
      if holds then .task (.expr whenTrue) id .done else .task (.expr whenFalse) id .done
  | .member object field range =>
    .task (.expr object) id fun v => .located range (v.member field.name) .done
  | .subscript object index range =>
    .task (.expr object) id fun a => .task (.expr index) id fun b =>
      .located range (a.subscript b) .done
  | .call callee args range =>
    .task (.expr callee) id fun v =>
      match v with
      | .function .print => .task (.exprs args) id fun vs => .step (.print vs)
      | .function (.user f) =>
        .task (.exprs args) id fun vs => .task (.call f vs range) id .done
      | other => .fail (.notAFunction other.kind) callee.range

/-- What a statement does. -/
def stmtPlan : (s : Stmt) → Plan (.given s.kind.mayDeclare) Flow
  | .expr e _ => .task (.expr e) id fun _ => .done .normal
  | .decl d _ => .task (.declare false d) id fun _ => .done .normal
  | .block b => .framed (.stmts b.stmts) .close
  | .ifElse c whenTrue whenFalse _ =>
    .task (.expr c) (fun _ => rfl) fun v => .condition c v fun holds =>
      if holds then .task (.stmt whenTrue) (fun _ => rfl) .done
      else .task (.stmt? whenFalse) id .done
  | .whileDo c body _ => .task (.loop (some c) none body) id .done
  | .doWhile body c _ => .task (.doLoop body c) id .done
  | .forLoop init c step body _ _ =>
    .framed (.stmt? init) fun _ => .task (.loop c step body) id .close
  | .switch subject body _ =>
    .task (.expr subject) id fun v => .task (.entry v body.stmts none) id fun rest =>
      match rest with
      | none => .done .normal
      | some rest => .framed (.stmts rest) fun flow => .close flow.afterSwitch
  | .caseLabel .. | .defaultLabel _ => .done .normal
  | .continue range => .done (.continue range)
  | .break range => .done (.break range)
  | .return value _ => .task (.expr? value) id fun v => .step (.deliver v)

/-- What a task does when it is performed in one step more than its parts. -/
def Task.plan : (t : Task) → Plan (.given t.mayDeclare) t.Answer
  | .expr e => exprPlan e
  | .expr? none => .done .null
  | .expr? (some e) => .task (.expr e) id .done
  | .test none => .done true
  | .test (some c) => .task (.expr c) id fun v => .condition c v .done
  | .exprs [] => .done []
  | .exprs (e :: rest) =>
    .task (.expr e) id fun v => .task (.exprs rest) id fun vs => .done (v :: vs)
  | .call f args range =>
    if args.length ≠ f.arity then .fail (.argumentCount f.ident.name f.arity args.length) range
    else .call f args range
  | .run f args => .invoke f args
  | .stmt s => stmtPlan s
  | .stmt? none => .done .normal
  | .stmt? (some s) => .task (.stmt s) (fun _ => rfl) .done
  | .stmts [] => .done .normal
  | .stmts (s :: rest) =>
    .task (.stmt s) (fun _ => rfl) fun flow =>
      match flow with
      | .normal => .task (.stmts rest) id .done
      | flow => .done flow
  | .loop c step body =>
    .task (.test c) (fun _ => rfl) fun holds =>
      if holds then
        .task (.stmt body) (fun _ => rfl) fun flow =>
          match flow.afterPass with
          | some flow => .done flow
          | none =>
            .task (.expr? step) (fun _ => rfl) fun _ => .task (.loop c step body) id .done
      else .done .normal
  | .doLoop body c =>
    .task (.stmt body) (fun _ => rfl) fun flow =>
      match flow.afterPass with
      | some flow => .done flow
      | none =>
        .task (.expr c) (fun _ => rfl) fun v => .condition c v fun holds =>
          if holds then .task (.doLoop body c) id .done else .done .normal
  | .entry _ [] fallback => .done fallback
  | .entry subject (s :: rest) fallback =>
    match s with
    | .caseLabel e range =>
      .task (.expr e) id fun v =>
        .located range (Value.binary (.compare .eq) subject v) fun equal =>
          if equal.bool? = some true then .done (some (s :: rest))
          else .task (.entry subject rest fallback) id .done
    | .defaultLabel _ =>
      .task (.entry subject rest (fallback <|> some (s :: rest))) id .done
    | _ => .task (.entry subject rest fallback) id .done
  | .declare _ (.var v) =>
    .task (.expr? v.init) (fun _ => rfl) fun value =>
      .step (.bind v.ident.name ⟨if v.constant then .const else .var, value⟩ v.range)
  | .declare true (.func f) =>
    .step (.bind f.ident.name ⟨.func, .function (.user f)⟩ f.ident.range)
  | .declare _ d => .fail (.unknownDeclaration d.kind) d.range

/-- What declarations do, and then what is done after them. -/
def declarePlan (next : Plan (.given true) Value) : List Decl → Plan (.given true) Value
  | [] => next
  | d :: rest => .task (.declare true d) id fun _ => declarePlan next rest

/-- What a program does. -/
def programPlan (p : Program) : Plan (.given true) Value :=
  declarePlan (.main fun main => .task (.call main [] main.range) (fun _ => rfl) .done) p.decls

/-- What statements at the outermost level do. -/
def outerPlan : List Stmt → Plan (.given true) Value
  | [] => .done .null
  | .decl d _ :: rest => .task (.declare true d) id fun _ => outerPlan rest
  | s :: rest =>
    .task (.stmt s) (fun _ => rfl) fun flow =>
      match flow with
      | .normal => outerPlan rest
      | .return v => .done v
      | .break range => .fail (.jumpOutsideLoop .break) range
      | .continue range => .fail (.jumpOutsideLoop .continue) range

/-! ## Evaluation -/

/-- The plan of an expression does what the evaluator does with it, in one step more. -/
theorem run_exprPlan (n : Nat) (e : Expr) : (exprPlan e).run n = expr (n + 1) e := by
  cases e with
  | literal | name => rfl
  | paren inner range => exact bind_pure _
  | unary op operand range =>
    simp only [exprPlan, expr, Plan.run, Plan.run_ite, Plan.run_located, Plan.run_done, Step.run,
      Task.perform, bind_pure]
  | binary op lhs rhs range =>
    cases op with
    | assign | compound => rfl
    | logical op =>
      simp only [exprPlan, expr, Plan.run, Plan.run_operand, Plan.run_ite, Plan.run_done,
        Task.perform]
    | arith | compare =>
      simp only [exprPlan, expr, Plan.run, Plan.run_located, Plan.run_done, Task.perform, bind_pure]
  | ternary c a b range =>
    simp only [exprPlan, expr, Plan.run, Plan.run_condition, Plan.run_ite, Plan.run_done,
      Task.perform, bind_pure]
  | member | subscript =>
    simp only [exprPlan, expr, Plan.run, Plan.run_located, Plan.run_done, Task.perform, bind_pure]
  | call callee args range =>
    refine bind_congr fun v => ?_
    cases v with
    | function c =>
      cases c with
      | print => rfl
      | user f => simp only [Plan.run, Plan.run_done, Task.perform, bind_pure]
    | _ => rfl

/-- The plan of a statement does what the evaluator does with it, in one step more. -/
theorem run_stmtPlan (n : Nat) (s : Stmt) : (stmtPlan s).run n = stmt (n + 1) s := by
  cases s with
  | «switch» subject body range =>
    refine bind_congr fun v => bind_congr fun rest => ?_
    cases rest <;> rfl
  | ifElse c a b range =>
    simp only [stmtPlan, stmt, Plan.run, Plan.run_condition, Plan.run_ite, Plan.run_done,
      Task.perform, bind_pure]
  | whileDo | doWhile => exact bind_pure _
  | _ => rfl

/-- A task does what its plan says. -/
theorem Task.perform_succ (n : Nat) (t : Task) : t.perform (n + 1) = t.plan.run n := by
  cases t with
  | expr e => exact (run_exprPlan n e).symm
  | expr? e =>
    cases e with
    | none => rfl
    | some e => exact (bind_pure _).symm
  | test c =>
    cases c with
    | none => rfl
    | some c =>
      simp only [perform, Eval.test, plan, Plan.run, Plan.run_condition, Plan.run_done, bind_pure]
  | exprs es => cases es <;> rfl
  | call f args range =>
    simp only [perform, Eval.call, plan, Plan.run_ite, Plan.run]
    rfl
  | run f args => exact run_succ n f args
  | stmt s => exact (run_stmtPlan n s).symm
  | stmt? s =>
    cases s with
    | none => rfl
    | some s => exact (bind_pure _).symm
  | stmts ss =>
    cases ss with
    | nil => rfl
    | cons s rest =>
      refine bind_congr fun flow => ?_
      cases flow with
      | normal => exact (bind_pure _).symm
      | _ => rfl
  | loop c step body =>
    simp only [perform, Eval.loop, plan, Plan.run, Plan.run_ite]
    refine bind_congr fun holds => ?_
    split
    · refine bind_congr fun flow => ?_
      cases flow.afterPass with
      | some flow => rfl
      | none => simp only [Plan.run, Plan.run_done, perform, bind_pure]
    · rfl
  | doLoop body c =>
    simp only [perform, Eval.doLoop, plan, Plan.run]
    refine bind_congr fun flow => ?_
    cases flow.afterPass with
    | some flow => rfl
    | none =>
      simp only [Plan.run, Plan.run_condition, Plan.run_ite, Plan.run_done, perform, bind_pure]
  | entry subject ss fallback =>
    cases ss with
    | nil => rfl
    | cons s rest =>
      cases s with
      | caseLabel e range =>
        simp only [perform, Eval.entry, plan, Plan.run, Plan.run_located, Plan.run_ite,
          Plan.run_done, bind_pure]
      | _ => exact (bind_pure _).symm
  | declare allowed d =>
    cases d with
    | var v => rfl
    | func f => cases allowed <;> rfl
    | group g => cases allowed <;> rfl

/-- The search for the main function changes nothing, whether it finds one or not. -/
theorem mainFunction_cases (env : Env) :
    (∃ main, mainFunction env = .ok main env) ∨
      ∃ e, mainFunction env = .error (.failed e) env := by
  unfold mainFunction
  rw [bind_of_ok (rfl : find? "main" env = .ok (env.stack.find? "main") env)]
  rcases env.stack.find? "main" with _ | ⟨_ | _ | _, value⟩
  · exact .inr ⟨_, rfl⟩
  · exact .inr ⟨_, rfl⟩
  · exact .inr ⟨_, rfl⟩
  · cases value with
    | function c =>
      cases c with
      | user f => exact .inl ⟨f, rfl⟩
      | print => exact .inr ⟨_, rfl⟩
    | _ => exact .inr ⟨_, rfl⟩

/-- Declarations are made before what follows. -/
theorem run_declarePlan (n : Nat) (next : Plan (.given true) Value) (ds : List Decl) :
    (declarePlan next ds).run n = declareAll n ds >>= fun _ => next.run n := by
  induction ds with
  | nil => rfl
  | cons d rest ih => simp only [declarePlan, Plan.run, declareAll, Task.perform, bind_assoc, ih]

theorem run_programPlan (n : Nat) (p : Program) : (programPlan p).run n = p.run n := by
  simp only [programPlan, run_declarePlan, Program.run, Plan.run, Plan.run_done, Task.perform,
    bind_pure]

/-- Statements at the outermost level do what their plan says. -/
theorem run_outerPlan (n : Nat) (ss : List Stmt) : (outerPlan ss).run n = outerStmts n ss := by
  induction ss with
  | nil => rfl
  | cons s rest ih =>
    cases s with
    | decl d range =>
      simp only [outerPlan, Plan.run, outerStmts, outerStmt, Task.perform, bind_assoc, pure_bind,
        ih]
    | _ =>
      refine bind_congr fun flow => ?_
      cases flow with
      | normal => exact ih
      | _ => rfl

/-! ## Parts -/

/-- A task after which nothing follows is started alone. -/
theorem Task.andThen_nil (n : Nat) (t : Task) (env : Env) :
    t.andThen n env (fun _ _ => []) = [(t, env)] := by
  unfold andThen
  cases t.perform n env <;> rfl

/-- What follows a task may be replaced by what starts the same tasks. -/
theorem Task.andThen_congr {n : Nat} {t : Task} {env : Env}
    {next next' : t.Answer → Env → List (Task × Env)}
    (h : ∀ a env', next a env' = next' a env') : t.andThen n env next = t.andThen n env next' := by
  rw [funext fun a => funext fun env' => h a env']

/-- The plan of an expression starts the parts of the expression. -/
theorem parts_exprPlan (n : Nat) (e : Expr) (env : Env) :
    (exprPlan e).parts n env = exprParts n e env := by
  cases e with
  | literal | name => rfl
  | paren inner range => exact Task.andThen_nil n _ env
  | unary op operand range =>
    simp only [exprPlan, exprParts, Plan.parts_ite, Plan.parts, Plan.parts_located_done,
      Task.andThen_nil]
  | binary op lhs rhs range =>
    cases op with
    | assign | compound => exact Task.andThen_nil n _ env
    | logical op =>
      have hlast : ∀ w env', (Plan.operand op rhs w fun b => .done (.bool b) :
          Plan (.given false) Value).parts n env' = [] := fun w env' => by
        rw [Plan.parts_operand]
        cases w.bool? <;> rfl
      refine Task.andThen_congr fun v env' => ?_
      rw [Plan.parts_operand]
      cases v.bool? with
      | none => rfl
      | some a =>
        simp only [Option.elim_some, Option.all_some, Plan.parts_ite, Plan.parts, Plan.parts_done,
          hlast, Task.andThen_nil]
    | arith | compare =>
      simp only [exprPlan, exprParts, Plan.parts, Plan.parts_located_done, Task.andThen_nil]
  | ternary c a b range =>
    refine Task.andThen_congr fun v env' => ?_
    rw [Plan.parts_condition]
    rcases v.bool? with _ | _ | _
    · rfl
    · exact Task.andThen_nil n _ env'
    · exact Task.andThen_nil n _ env'
  | member | subscript =>
    simp only [exprPlan, exprParts, Plan.parts, Plan.parts_located_done, Task.andThen_nil]
  | call callee args range =>
    refine Task.andThen_congr fun v env' => ?_
    cases v with
    | function c =>
      cases c with
      | print => exact Task.andThen_nil n _ env'
      | user f => exact Task.andThen_congr fun vs env'' => Task.andThen_nil n _ env''
    | _ => rfl

/-- The plan of a statement starts the parts of the statement. -/
theorem parts_stmtPlan (n : Nat) (s : Stmt) (env : Env) :
    (stmtPlan s).parts n env = stmtParts n s env := by
  cases s with
  | expr | decl | block | whileDo | doWhile | «return» => exact Task.andThen_nil n _ _
  | ifElse c a b range =>
    refine Task.andThen_congr fun v env' => ?_
    rw [Plan.parts_condition]
    rcases v.bool? with _ | _ | _
    · rfl
    · exact Task.andThen_nil n _ env'
    · exact Task.andThen_nil n _ env'
  | forLoop init c step body scope range =>
    exact Task.andThen_congr fun _ env' => Task.andThen_nil n _ env'
  | «switch» subject body range =>
    refine Task.andThen_congr fun v env' => Task.andThen_congr fun rest env'' => ?_
    cases rest with
    | none => rfl
    | some rest => exact Task.andThen_nil n _ _
  | caseLabel | defaultLabel | «continue» | «break» => rfl

/-- The parts of a task are the tasks that its plan starts. -/
theorem Task.parts_eq (n : Nat) (t : Task) (env : Env) : t.parts n env = t.plan.parts n env := by
  cases t with
  | expr e => exact (parts_exprPlan n e env).symm
  | expr? e =>
    cases e with
    | none => rfl
    | some e => exact (andThen_nil n _ env).symm
  | test c =>
    cases c with
    | none => rfl
    | some c =>
      rw [parts, ← andThen_nil]
      refine Task.andThen_congr fun v env' => ?_
      rw [Plan.parts_condition]
      cases v.bool? <;> rfl
  | exprs es =>
    cases es with
    | nil => rfl
    | cons e rest => exact Task.andThen_congr fun _ env' => (andThen_nil n _ env').symm
  | call f args range =>
    simp only [parts, plan, Plan.parts_ite, Plan.parts]
    by_cases hlength : args.length = f.arity
    · simp only [hlength, ne_eq, not_true_eq_false, false_or, if_false]
    · simp only [hlength, ne_eq, not_false_eq_true, true_or, if_true]
      rfl
  | run f args => rfl
  | stmt s => exact (parts_stmtPlan n s env).symm
  | stmt? s =>
    cases s with
    | none => rfl
    | some s => exact (andThen_nil n _ env).symm
  | stmts ss =>
    cases ss with
    | nil => rfl
    | cons s rest =>
      refine Task.andThen_congr fun flow env' => ?_
      cases flow with
      | normal => exact (andThen_nil n _ env').symm
      | _ => rfl
  | loop c step body =>
    refine Task.andThen_congr fun holds env₁ => ?_
    cases holds with
    | false => rfl
    | true =>
      refine Task.andThen_congr fun flow env₂ => ?_
      dsimp only
      cases flow.afterPass with
      | some flow => rfl
      | none => exact Task.andThen_congr fun _ env₃ => (andThen_nil n _ env₃).symm
  | doLoop body c =>
    refine Task.andThen_congr fun flow env₁ => ?_
    dsimp only
    cases flow.afterPass with
    | some flow => rfl
    | none =>
      refine Task.andThen_congr fun v env₂ => ?_
      rw [Plan.parts_condition]
      rcases v.bool? with _ | _ | _
      · rfl
      · rfl
      · exact (andThen_nil n _ env₂).symm
  | entry subject ss fallback =>
    cases ss with
    | nil => rfl
    | cons s rest =>
      cases s with
      | caseLabel e range =>
        refine Task.andThen_congr fun v env' => ?_
        dsimp only
        cases Value.binary (.compare .eq) subject v with
        | error fault => rfl
        | ok equal =>
          simp only [Plan.located, Plan.parts_ite, Plan.parts_done, Plan.parts, andThen_nil]
      | _ => exact (andThen_nil n _ env).symm
  | declare allowed d =>
    cases d with
    | var v => exact (andThen_nil n _ env).symm
    | func f => cases allowed <;> rfl
    | group g => cases allowed <;> rfl

end Eval

end Rill
