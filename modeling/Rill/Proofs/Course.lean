import Rill.Run.Eval

/-!
# The course of an evaluation

The evaluator tells how an evaluation ends. To speak of what happens on the way, its functions are
taken as tasks (`Task`, `Task.perform`), and `Task.parts` gives the tasks that are started while a
task is performed, in their order and each with the environment in which it starts : what comes
after a part is started only if the part has finished, and in the environment that it has left.

`Task.course` follows the parts down, and the parts of the parts, but does not look below
tasks that are marked as leaves. Without leaves it lists all that is started until an
evaluation ends (`Task.fullCourse`), and with the calls as leaves what one activation of a
function does itself (`Task.activation`). `Task.nodes` lists the statements and expressions of
the tree that a task executes directly.
-/

namespace Rill

/-- An environment with a frame opened. -/
def Env.opened (env : Env) : Env := { env with stack := env.stack.push }

/-- An environment with its innermost frame dropped. -/
def Env.closed (env : Env) : Env := { env with stack := env.stack.pop }

/-- An environment one call deeper. -/
def Env.deeper (env : Env) : Env := { env with callDepth := env.callDepth + 1 }

namespace Eval

/-! ## Tasks -/

/-- What the evaluator is asked to do : one form for each of its functions. -/
inductive Task where
  | expr (e : Expr)
  | expr? (e : Option Expr)
  | test (c : Option Expr)
  | exprs (es : List Expr)
  | call (f : Func) (args : List Value) (range : Range)
  | run (f : Func) (args : List Value)
  | stmt (s : Stmt)
  | stmt? (s : Option Stmt)
  | stmts (ss : List Stmt)
  | loop (c step : Option Expr) (body : Stmt)
  | doLoop (body : Stmt) (c : Expr)
  | entry (subject : Value) (ss : List Stmt) (fallback : Option (List Stmt))
  | declare (allowed : Bool) (d : Decl)

namespace Task

/-- What a task answers with. -/
@[reducible]
def Answer : Task → Type
  | .test _ => Bool
  | .exprs _ => List Value
  | .stmt _ | .stmt? _ | .stmts _ | .loop .. | .doLoop .. => Flow
  | .entry .. => Option (List Stmt)
  | .declare .. => Unit
  | _ => Value

/-- Performs a task in a number of steps. -/
def perform (n : Nat) : (t : Task) → Eval t.Answer
  | .expr e => Eval.expr n e
  | .expr? e => Eval.expr? n e
  | .test c => Eval.test n c
  | .exprs es => Eval.exprs n es
  | .call f args range => Eval.call n f args range
  | .run f args => Eval.run n f args
  | .stmt s => Eval.stmt n s
  | .stmt? s => Eval.stmt? n s
  | .stmts ss => Eval.stmts n ss
  | .loop c step body => Eval.loop n c step body
  | .doLoop body c => Eval.doLoop n body c
  | .entry subject ss fallback => Eval.entry n subject ss fallback
  | .declare allowed d => Eval.declare n allowed d

theorem perform_zero (t : Task) (env : Env) : t.perform 0 env = .error .exhausted env := by
  cases t <;> rfl

end Task

/-! ## How steps end -/

variable {α β : Type}

theorem bind_of_ok {act : Eval α} {k : α → Eval β} {env env' : Env} {a : α}
    (h : act env = .ok a env') : (act >>= k) env = k a env' := by
  simp only [Bind.bind, EStateM.bind, h]

theorem bind_of_error {act : Eval α} {k : α → Eval β} {env env' : Env} {stop : Stop}
    (h : act env = .error stop env') : (act >>= k) env = .error stop env' := by
  simp only [Bind.bind, EStateM.bind, h]

/-- A step made of two has finished only if both have. -/
theorem ok_of_bind {act : Eval α} {k : α → Eval β} {env env' : Env} {b : β}
    (h : (act >>= k) env = .ok b env') :
    ∃ a env₁, act env = .ok a env₁ ∧ k a env₁ = .ok b env' := by
  cases hact : act env with
  | ok a env₁ => exact ⟨a, env₁, rfl, (bind_of_ok hact).symm.trans h⟩
  | error stop env₁ => cases (bind_of_error hact).symm.trans h

/-- The environment in which a step ends. -/
def left : EStateM.Result Stop Env α → Env
  | .ok _ env => env
  | .error _ env => env

/-- What a step gives, whatever it leaves. -/
def answer : EStateM.Result Stop Env α → Except Stop α
  | .ok a _ => .ok a
  | .error stop _ => .error stop

/-- Whether a step has used up its number of steps. -/
def spent : EStateM.Result Stop Env α → Bool
  | .error .exhausted _ => true
  | _ => false

/-- A step that stops does so also with another after it. -/
theorem left_bind_of_error {act : Eval α} {k : α → Eval β} {env env' : Env} {stop : Stop}
    (h : act env = .error stop env') : left ((act >>= k) env) = env' := by
  rw [bind_of_error h]
  rfl

theorem condition_of_bool? {v : Value} {holds : Bool} (c : Expr) (env : Env)
    (h : v.bool? = some holds) : condition c v env = .ok holds env := by
  simp only [condition, h]
  rfl

theorem ok_of_add {name : String} {symbol : Symbol} {range : Range} {env env' : Env}
    (h : add name symbol range env = .ok () env') :
    env.stack.add? name symbol = some env'.stack := by
  unfold add at h
  cases hadd : env.stack.add? name symbol with
  | none => simp [hadd] at h
  | some stack =>
    rw [hadd] at h
    obtain ⟨-, rfl⟩ := EStateM.Result.ok.inj h
    rfl

/-- What an assignment writes to is the name that its target consists of, and it is bound as a
variable. -/
theorem ok_of_target {e : Expr} {name : String} {old : Value} {env env' : Env}
    (h : target e env = .ok (name, old) env') :
    env' = env ∧ (∃ ident, e.ident? = some ident ∧ ident.name = name) ∧
      env.stack.find? name = some ⟨.var, old⟩ := by
  unfold target at h
  cases he : e.ident? with
  | none =>
    rw [he] at h
    cases h
  | some ident =>
    rw [he] at h
    obtain ⟨found, env₁, hfind, hrest⟩ := ok_of_bind h
    obtain ⟨hfound, rfl⟩ := EStateM.Result.ok.inj hfind
    cases found with
    | none => cases hrest
    | some symbol =>
      obtain ⟨kind, value⟩ := symbol
      cases kind with
      | var =>
        obtain ⟨hname, rfl⟩ := EStateM.Result.ok.inj hrest
        obtain ⟨rfl, rfl⟩ := Prod.mk.inj hname
        exact ⟨rfl, ⟨ident, rfl, rfl⟩, hfound⟩
      | const => cases hrest
      | func => cases hrest

/-! A call at the limit is refused; below it, the step is run one call deeper and the call is taken
back, whether the step finishes or stops. -/

/-- A call at the limit fails, and nothing is changed. -/
theorem calling_of_limit {act : Eval α} {env : Env} (range : Range)
    (h : env.maxCallDepth ≤ env.callDepth) :
    calling range act env = .error (.failed ⟨.callDepthExceeded env.maxCallDepth, range⟩) env := by
  simp only [calling, h, if_true]

/-- After a call the depth is what it was before. -/
theorem calling_of_ok {act : Eval α} {env env' : Env} {a : α} (range : Range)
    (hlimit : ¬env.maxCallDepth ≤ env.callDepth) (h : act env.deeper = .ok a env') :
    calling range act env = .ok a { env' with callDepth := env'.callDepth - 1 } := by
  have hact : act { env with callDepth := env.callDepth + 1 } = .ok a env' := h
  simp only [calling, hlimit, if_false, hact]

/-- So it is after a call that has stopped. -/
theorem calling_of_error {act : Eval α} {env env' : Env} {stop : Stop} (range : Range)
    (hlimit : ¬env.maxCallDepth ≤ env.callDepth) (h : act env.deeper = .error stop env') :
    calling range act env = .error stop { env' with callDepth := env'.callDepth - 1 } := by
  have hact : act { env with callDepth := env.callDepth + 1 } = .error stop env' := h
  simp only [calling, hlimit, if_false, hact]

/-- Where a call ends, below the limit. -/
theorem left_calling {act : Eval α} {env : Env} (range : Range)
    (hlimit : ¬env.maxCallDepth ≤ env.callDepth) :
    left (calling range act env) =
      { left (act env.deeper) with callDepth := (left (act env.deeper)).callDepth - 1 } := by
  cases h : act env.deeper with
  | ok a env' => rw [calling_of_ok range hlimit h]; rfl
  | error stop env' => rw [calling_of_error range hlimit h]; rfl

theorem calling_congr {act act' : Eval α} {env : Env} (range : Range)
    (hlimit : ¬env.maxCallDepth ≤ env.callDepth) (h : act env.deeper = act' env.deeper) :
    calling range act env = calling range act' env := by
  cases hact : act' env.deeper with
  | ok a env' => rw [calling_of_ok range hlimit (h.trans hact), calling_of_ok range hlimit hact]
  | error stop env' =>
    rw [calling_of_error range hlimit (h.trans hact), calling_of_error range hlimit hact]

theorem spent_calling {act : Eval α} {env : Env} (range : Range)
    (hlimit : ¬env.maxCallDepth ≤ env.callDepth) :
    spent (calling range act env) = spent (act env.deeper) := by
  cases h : act env.deeper with
  | ok a env' => rw [calling_of_ok range hlimit h]; rfl
  | error stop env' => rw [calling_of_error range hlimit h]; cases stop <;> rfl

/-- Opens the frame of a call, with the slot for its result and the parameters. -/
def enter (f : Func) (args : List Value) : Eval Unit := do
  push
  add resultName ⟨.var, .null⟩ f.range
  bindArgs f.params args

/-- Gives what the slot of a call holds when its body has been executed, and drops the frame. A
`break` or `continue` that has come out of the body is a failure. -/
def leave : Flow → Eval Value
  | .break range => strayJump .break range
  | .continue range => strayJump .continue range
  | _ => do
    let value ← result
    pop
    return value

/-- A call opens a frame, executes the body, and takes the result. -/
theorem run_succ (n : Nat) (f : Func) (args : List Value) :
    run (n + 1) f args = (do enter f args; leave (← stmts n f.body.stmts)) := by
  simp only [run, enter, bind_assoc]
  rfl

/-! ## Parts -/

/-- A task that is started in an environment, and then what is started when it has finished. -/
def Task.andThen (n : Nat) (t : Task) (env : Env) (next : t.Answer → Env → List (Task × Env)) :
    List (Task × Env) :=
  (t, env) ::
    match t.perform n env with
    | .ok a env => next a env
    | .error _ _ => []

/-- What an expression starts. -/
def exprParts (n : Nat) : Expr → Env → List (Task × Env)
  | .literal .., _ => []
  | .name _, _ => []
  | .paren inner _, env => [(.expr inner, env)]
  | .unary op operand _, env => if op.isStep then [] else [(.expr operand, env)]
  | .binary .assign _ rhs _, env => [(.expr rhs, env)]
  | .binary (.compound _) _ rhs _, env => [(.expr rhs, env)]
  | .binary (.logical op) lhs rhs _, env =>
    Task.andThen n (.expr lhs) env fun v env =>
      if v.bool?.all op.decides then [] else [(.expr rhs, env)]
  | .binary _ lhs rhs _, env => Task.andThen n (.expr lhs) env fun _ env => [(.expr rhs, env)]
  | .ternary c whenTrue whenFalse _, env =>
    Task.andThen n (.expr c) env fun v env =>
      match v.bool? with
      | some true => [(.expr whenTrue, env)]
      | some false => [(.expr whenFalse, env)]
      | none => []
  | .member object _ _, env => [(.expr object, env)]
  | .subscript object index _, env =>
    Task.andThen n (.expr object) env fun _ env => [(.expr index, env)]
  | .call callee args range, env =>
    Task.andThen n (.expr callee) env fun v env =>
      match v with
      | .function .print => [(.exprs args, env)]
      | .function (.user f) =>
        Task.andThen n (.exprs args) env fun vs env => [(.call f vs range, env)]
      | _ => []

/-- What a statement starts. -/
def stmtParts (n : Nat) : Stmt → Env → List (Task × Env)
  | .expr e _, env => [(.expr e, env)]
  | .decl d _, env => [(.declare false d, env)]
  | .block b, env => [(.stmts b.stmts, env.opened)]
  | .ifElse c whenTrue whenFalse _, env =>
    Task.andThen n (.expr c) env fun v env =>
      match v.bool? with
      | some true => [(.stmt whenTrue, env)]
      | some false => [(.stmt? whenFalse, env)]
      | none => []
  | .whileDo c body _, env => [(.loop (some c) none body, env)]
  | .doWhile body c _, env => [(.doLoop body c, env)]
  | .forLoop init c step body _ _, env =>
    Task.andThen n (.stmt? init) env.opened fun _ env => [(.loop c step body, env)]
  | .switch subject body _, env =>
    Task.andThen n (.expr subject) env fun v env =>
      Task.andThen n (.entry v body.stmts none) env fun rest env =>
        match rest with
        | some rest => [(.stmts rest, env.opened)]
        | none => []
  | .return value _, env => [(.expr? value, env)]
  | _, _ => []

/-- The tasks that a task starts when it is performed in one step more than `n`. -/
def Task.parts (n : Nat) : Task → Env → List (Task × Env)
  | .expr e, env => exprParts n e env
  | .expr? (some e), env => [(.expr e, env)]
  | .test (some c), env => [(.expr c, env)]
  | .exprs (e :: rest), env => andThen n (.expr e) env fun _ env => [(.exprs rest, env)]
  | .call f args _, env =>
    if args.length ≠ f.arity ∨ env.maxCallDepth ≤ env.callDepth then []
    else [(.run f args, env.deeper)]
  | .run f args, env =>
    match enter f args env with
    | .ok _ env => [(.stmts f.body.stmts, env)]
    | .error _ _ => []
  | .stmt s, env => stmtParts n s env
  | .stmt? (some s), env => [(.stmt s, env)]
  | .stmts (s :: rest), env =>
    andThen n (.stmt s) env fun flow env =>
      match flow with
      | .normal => [(.stmts rest, env)]
      | _ => []
  | .loop c step body, env =>
    andThen n (.test c) env fun holds env =>
      if holds then
        andThen n (.stmt body) env fun flow env =>
          match flow.afterPass with
          | some _ => []
          | none => andThen n (.expr? step) env fun _ env => [(.loop c step body, env)]
      else []
  | .doLoop body c, env =>
    andThen n (.stmt body) env fun flow env =>
      match flow.afterPass with
      | some _ => []
      | none =>
        andThen n (.expr c) env fun v env =>
          if v.bool? = some true then [(.doLoop body c, env)] else []
  | .entry subject (.caseLabel e _ :: rest) fallback, env =>
    andThen n (.expr e) env fun v env =>
      match Value.binary (.compare .eq) subject v with
      | .ok equal => if equal.bool? = some true then [] else [(.entry subject rest fallback, env)]
      | .error _ => []
  | .entry subject (.defaultLabel range :: rest) fallback, env =>
    [(.entry subject rest (fallback <|> some (.defaultLabel range :: rest)), env)]
  | .entry subject (_ :: rest) fallback, env => [(.entry subject rest fallback, env)]
  | .declare _ (.var v), env => [(.expr? v.init, env)]
  | _, _ => []

/-- What holds of all that is started : of the task that comes first, and of what it lets start. -/
theorem Task.forall_mem_andThen {n : Nat} {t : Task} {env : Env}
    {next : t.Answer → Env → List (Task × Env)} {P : Task × Env → Prop} :
    (∀ p ∈ t.andThen n env next, P p) ↔
      P (t, env) ∧ ∀ a env', t.perform n env = .ok a env' → ∀ p ∈ next a env', P p := by
  unfold andThen
  cases t.perform n env <;> simp

theorem Task.mem_andThen_self {n : Nat} {t : Task} {env : Env}
    {next : t.Answer → Env → List (Task × Env)} :
    (t, env) ∈ t.andThen n env next := List.mem_cons_self

theorem Task.mem_andThen_of_ok {n : Nat} {t : Task} {env env' : Env} {a : t.Answer}
    {next : t.Answer → Env → List (Task × Env)} {p : Task × Env} (h : t.perform n env = .ok a env')
    (hp : p ∈ next a env') : p ∈ t.andThen n env next := by
  unfold andThen
  rw [h]
  exact List.mem_cons_of_mem _ hp

/-! ## Courses -/

/-- A task at the moment when it is started. -/
structure Moment where
  steps : Nat
  task : Task
  env : Env

/-- All that is started while a task is performed, in order, except below leaves. -/
def Task.course (leaf : Task → Bool) : Nat → Task → Env → List Moment
  | 0, t, env => [⟨0, t, env⟩]
  | n + 1, t, env =>
    ⟨n + 1, t, env⟩ ::
      if leaf t then [] else (t.parts n env).flatMap fun p => course leaf n p.1 p.2

/-- Whether a task is a call of a function. -/
def Task.isCall : Task → Bool
  | .call .. => true
  | _ => false

/-- The course of a task is its own moment and then the courses of its parts. -/
theorem Task.mem_course_succ {leaf : Task → Bool} {n : Nat} {t : Task} {env : Env} {m : Moment} :
    m ∈ t.course leaf (n + 1) env ↔
      m = ⟨n + 1, t, env⟩ ∨ leaf t = false ∧ ∃ p ∈ t.parts n env, m ∈ p.1.course leaf n p.2 := by
  cases h : leaf t <;> simp [course, h]

/-- All that is started while a task is performed, also by the functions that it calls. -/
def Task.fullCourse (n : Nat) (t : Task) (env : Env) : List Moment :=
  t.course (fun _ => false) n env

/-- What is started while a task is performed, without what the functions do that it calls. -/
def Task.activation (n : Nat) (t : Task) (env : Env) : List Moment := t.course isCall n env

/-- The statements and expressions of the tree that a task executes directly, in order. -/
def Task.nodes : Nat → Task → Env → List Moment
  | n, .expr e, env => [⟨n, .expr e, env⟩]
  | n, .stmt s, env => [⟨n, .stmt s, env⟩]
  | 0, _, _ => []
  | n + 1, t, env => (t.parts n env).flatMap fun p => nodes n p.1 p.2

end Eval

end Rill
