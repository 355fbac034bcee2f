import Rill.Proofs.Balance

/-!
# Signals

A statement finishes with a flow, and each flow but normal completion is a signal to the
statement around it. A statement that executes others directly (`Eval.executed`) stops at the
first signal and finishes with it, except that a loop takes a `break` of its body for its end
and a `continue` for the end of a pass, and a `switch` takes a `break` for its end
(`Stmt.onSignal`, `Eval.stmt_of_signal`).

One statement is not obeyed : the one with which a `for` begins. The loop goes on to its condition
whatever flow that statement has finished with (`Eval.forLoop_of_init`).
-/

namespace Rill

namespace Stmt

/-- The statement with which a `for` begins. -/
def init? : Stmt → Option Stmt
  | .forLoop init .. => init
  | _ => none

/-- How a statement finishes when a statement that it executes has finished with a signal; `none`
stands for a loop that goes on to its next pass. -/
def onSignal (s : Stmt) : Flow → Option Flow
  | .break range => some (if s.kind.isLoop || s.kind == .switch then .normal else .break range)
  | .continue range => if s.kind.isLoop then none else some (.continue range)
  | flow => some flow

/-- The environment that a statement leaves when the last of the statements that it
executes has left one. -/
def closing : Stmt → Env → Env
  | .block _, env | .forLoop .., env | .switch .., env => env.closed
  | _, env => env

end Stmt

namespace Eval

/-- The statements and expressions that tasks execute directly. -/
def nodesOf (n : Nat) (l : List (Task × Env)) : List Moment := l.flatMap fun p => p.1.nodes n p.2

/-- The statements and expressions that a statement executes directly, in order, when it is executed
in one step more than `n`. -/
def executed (n : Nat) (s : Stmt) (env : Env) : List Moment := nodesOf n (stmtParts n s env)

/-- What a loop does after a pass over its body that was executed in `n` steps. -/
def nextPass (n : Nat) : Stmt → Eval Flow
  | .whileDo c body _ => loop n (some c) none body
  | .doWhile body c _ => do if ← condition c (← expr n c) then doLoop n body c else return .normal
  | .forLoop _ c step body _ _ => do
    let _ ← expr? n step
    let flow ← loop n c step body
    pop
    return flow
  | _ => return .normal

/-- What a loop starts after a pass over its body that was executed in `n` steps. -/
def nextParts (n : Nat) : Stmt → Env → List (Task × Env)
  | .whileDo c body _, env => [(.loop (some c) none body, env)]
  | .doWhile body c _, env =>
    Task.andThen n (.expr c) env fun v env =>
      if v.bool? = some true then [(.doLoop body c, env)] else []
  | .forLoop _ c step body _ _, env =>
    Task.andThen n (.expr? step) env fun _ env => [(.loop c step body, env)]
  | _, _ => []

namespace Task

/-- Whether a task executes statements of the activation that it belongs to. -/
def isExecution : Task → Bool
  | .run .. | .stmt _ | .stmt? _ | .stmts _ | .loop .. | .doLoop .. => true
  | _ => false

/-- Whether a task is a statement or an expression of the tree. -/
def isNode : Task → Bool
  | .expr _ | .stmt _ => true
  | _ => false

end Task

/-! ## Lists of moments -/

variable {n m : Nat} {env env₁ env₂ : Env} {before after : List Moment} {flow : Flow}

/-- Moments at which no statement is started. -/
def NoStmts (l : List Moment) : Prop := ∀ x ∈ l, x.task.isExecution = false

namespace NoStmts

variable {l l' : List Moment} {s : Stmt}

theorem ne (h : NoStmts l) : l ≠ before ++ ⟨m, .stmt s, env⟩ :: after := by
  rintro rfl
  exact absurd (h ⟨m, .stmt s, env⟩ (by simp)) (by simp [Task.isExecution])

/-- A statement lies behind moments at which none is started. -/
theorem split (h : NoStmts l) (heq : l ++ l' = before ++ ⟨m, .stmt s, env⟩ :: after) :
    ∃ between, before = l ++ between ∧ l' = between ++ ⟨m, .stmt s, env⟩ :: after := by
  rcases List.append_eq_append_iff.1 heq with ⟨between, hbefore, hl'⟩ | ⟨between, hl, hafter⟩
  · exact ⟨between, hbefore, hl'⟩
  · cases between with
    | nil => exact ⟨[], by simpa using hl.symm, by simpa using hafter.symm⟩
    | cons x between =>
      obtain ⟨rfl, -⟩ := List.cons.inj hafter
      exact absurd hl h.ne

end NoStmts

/-! ## Expressions execute no statements -/

namespace Task

/-- All tasks that are started have a property. -/
def OnlyStarts (P : Task → Prop) (l : List (Task × Env)) : Prop := ∀ p ∈ l, P p.1

variable {t : Task} {P : Task → Prop}

theorem OnlyStarts.nil : OnlyStarts P [] := List.forall_mem_nil _

theorem OnlyStarts.singleton (h : P t) : OnlyStarts P [(t, env)] := by simpa [OnlyStarts] using h

/-- A task and those after it have a property if each has. -/
theorem OnlyStarts.andThen {next : t.Answer → Env → List (Task × Env)} (h : P t)
    (hnext : ∀ a env', OnlyStarts P (next a env')) : OnlyStarts P (t.andThen n env next) :=
  forall_mem_andThen.2 ⟨h, fun a env' _ => hnext a env'⟩

/-- An expression starts no statement of its own activation. -/
theorem isExecution_exprParts (n : Nat) (e : Expr) (env : Env) :
    OnlyStarts (·.isExecution = false) (exprParts n e env) := by
  cases e with
  | literal | name => exact .nil
  | paren | member => exact .singleton rfl
  | unary op operand range =>
    simp only [exprParts]
    split
    · exact .nil
    · exact .singleton rfl
  | binary op lhs rhs range =>
    cases op with
    | assign | compound op => exact .singleton rfl
    | arith op | compare op => exact .andThen rfl fun _ _ => .singleton rfl
    | logical op =>
      refine .andThen rfl fun v env' => ?_
      split
      · exact .nil
      · exact .singleton rfl
  | ternary c a b range =>
    refine .andThen rfl fun v env' => ?_
    split
    · exact .singleton rfl
    · exact .singleton rfl
    · exact .nil
  | subscript object index range => exact .andThen rfl fun _ _ => .singleton rfl
  | call callee args range =>
    refine .andThen rfl fun v env' => ?_
    split
    · exact .singleton rfl
    · exact .andThen rfl fun _ _ => .singleton rfl
    · exact .nil

/-- Whether a task evaluates something of the tree without being an expression itself : an operand
that may be missing, a condition, arguments, labels, a declaration. -/
def isWrapper : Task → Bool
  | .expr? _ | .test _ | .exprs _ | .entry .. | .declare .. => true
  | _ => false

/-- Such a task starts only expressions and such tasks. -/
theorem parts_of_isWrapper (ht : t.isWrapper) :
    OnlyStarts (fun t => (∃ e, t = .expr e) ∨ t.isWrapper) (t.parts n env) := by
  cases t with
  | expr? e =>
    cases e with
    | none => exact .nil
    | some e => exact .singleton (.inl ⟨e, rfl⟩)
  | test c =>
    cases c with
    | none => exact .nil
    | some c => exact .singleton (.inl ⟨c, rfl⟩)
  | exprs es =>
    cases es with
    | nil => exact .nil
    | cons e rest => exact .andThen (.inl ⟨e, rfl⟩) fun _ _ => .singleton (.inr rfl)
  | entry subject ss fallback =>
    cases ss with
    | nil => exact .nil
    | cons s rest =>
      cases s with
      | caseLabel e range =>
        refine .andThen (.inl ⟨e, rfl⟩) fun v env' => ?_
        split
        · split
          · exact .nil
          · exact .singleton (.inr rfl)
        · exact .nil
      | _ => exact .singleton (.inr rfl)
  | declare allowed d =>
    cases d with
    | var v => exact .singleton (.inr rfl)
    | func | group => exact .nil
  | _ => exact absurd ht (by simp [isWrapper])

theorem isNode_of_isWrapper (ht : t.isWrapper) : t.isNode = false := by
  cases t <;> simp_all [isWrapper, isNode]

theorem isExecution_of_isWrapper (ht : t.isWrapper) : t.isExecution = false := by
  cases t <;> simp_all [isWrapper, isExecution]

/-- A task that executes no statement starts none but in a call. -/
theorem isExecution_parts (ht : t.isExecution = false) (hcall : t.isCall = false) :
    OnlyStarts (·.isExecution = false) (t.parts n env) := by
  intro p hp
  cases t with
  | expr e => exact isExecution_exprParts n e env p hp
  | expr? | test | exprs | entry | declare =>
    rcases parts_of_isWrapper rfl p hp with ⟨e, he⟩ | hwrapper
    · rw [he]
      rfl
    · exact isExecution_of_isWrapper hwrapper
  | call => exact absurd hcall (by simp [isCall])
  | _ => exact absurd ht (by simp [isExecution])

/-- In the activation of a task that executes no statement none is started. -/
theorem noStmts_activation (ht : t.isExecution = false) : NoStmts (t.activation n env) := by
  intro x hx
  induction n generalizing t env with
  | zero =>
    obtain rfl : x = ⟨0, t, env⟩ := by simpa [activation, course] using hx
    exact ht
  | succ n ih =>
    rcases mem_course_succ.1 hx with rfl | ⟨hcall, p, hp, hx⟩
    · exact ht
    · exact ih (isExecution_parts ht hcall p hp) hx

theorem nodesOf_singleton : nodesOf n [(t, env)] = t.nodes n env := by simp [nodesOf]

/-- What is executed after a task depends on the environment that it leaves. -/
theorem nodesOf_andThen {next : t.Answer → Env → List (Task × Env)} :
    nodesOf n (t.andThen n env next) =
      t.nodes n env ++
        match t.perform n env with
        | .ok a env => nodesOf n (next a env)
        | .error _ _ => [] := by
  unfold andThen nodesOf
  cases t.perform n env <;> simp

theorem nodes_expr (n : Nat) (e : Expr) (env : Env) :
    (Task.expr e).nodes n env = [⟨n, .expr e, env⟩] := by
  cases n <;> rfl

theorem nodes_stmt (n : Nat) (s : Stmt) (env : Env) :
    (Task.stmt s).nodes n env = [⟨n, .stmt s, env⟩] := by
  cases n <;> rfl

theorem nodes_zero (ht : t.isNode = false) : t.nodes 0 env = [] := by
  cases t with
  | expr | stmt => exact absurd ht (by simp [isNode])
  | _ => rfl

/-- A task that is no node of the tree executes what its parts execute. -/
theorem nodes_succ (ht : t.isNode = false) : t.nodes (n + 1) env = nodesOf n (t.parts n env) := by
  cases t with
  | expr | stmt => exact absurd ht (by simp [isNode])
  | _ => rfl

theorem noStmts_nodes_expr (n : Nat) (e : Expr) (env : Env) :
    NoStmts ((Task.expr e).nodes n env) := by
  simp [NoStmts, nodes_expr, isExecution]

/-- What only wraps an expression executes no statement directly. -/
theorem noStmts_nodes (ht : t.isWrapper) : NoStmts (t.nodes n env) := by
  induction n generalizing t env with
  | zero =>
    rw [nodes_zero (isNode_of_isWrapper ht)]
    exact List.forall_mem_nil _
  | succ n ih =>
    intro x hx
    rw [nodes_succ (isNode_of_isWrapper ht)] at hx
    obtain ⟨p, hp, hx⟩ := List.mem_flatMap.1 hx
    rcases parts_of_isWrapper ht p hp with ⟨e, he⟩ | hwrapper
    · rw [he] at hx
      exact noStmts_nodes_expr n e p.2 x hx
    · exact ih hwrapper x hx

end Task

/-! ## One signal -/

section

variable {child : Stmt}

/-- A statement is the first of some moments, which is a statement too, or it is
among the others. -/
theorem split_cons {s : Stmt} {l : List Moment}
    (h : ⟨n, .stmt s, env⟩ :: l = before ++ ⟨m, .stmt child, env₁⟩ :: after) :
    (before = [] ∧ n = m ∧ s = child ∧ env = env₁ ∧ l = after) ∨
      ∃ before', l = before' ++ ⟨m, .stmt child, env₁⟩ :: after := by
  rcases List.cons_eq_append_iff.1 h with ⟨hbefore, hhead⟩ | ⟨before', -, htail⟩
  · obtain ⟨hmoment, hafter⟩ := List.cons.inj hhead
    obtain ⟨rfl, htask, rfl⟩ := Moment.mk.inj hmoment
    exact .inl ⟨hbefore, rfl, (Task.stmt.inj htask).symm, rfl, hafter.symm⟩
  · exact .inr ⟨before', htail⟩

/-- Statements in a row stop at a signal. -/
theorem stmts_of_signal {ss : List Stmt}
    (h : (Task.stmts ss).nodes n env = before ++ ⟨m, .stmt child, env₁⟩ :: after)
    (hchild : stmt m child env₁ = .ok flow env₂) (hflow : flow ≠ .normal) :
    after = [] ∧ stmts n ss env = .ok flow env₂ := by
  induction n generalizing ss env before with
  | zero => simp [Task.nodes] at h
  | succ n ih =>
    cases ss with
    | nil => simp [Task.nodes, Task.parts] at h
    | cons s rest =>
      rw [Task.nodes_succ rfl] at h
      simp only [Task.parts, Task.nodesOf_andThen, Task.nodes_stmt, Task.perform,
        List.singleton_append] at h
      simp only [stmts]
      rcases split_cons h with ⟨-, rfl, rfl, rfl, rfl⟩ | ⟨before', htail⟩
      · rw [bind_of_ok hchild, hchild]
        cases flow with
        | normal => exact absurd rfl hflow
        | _ => exact ⟨rfl, rfl⟩
      · cases hs : stmt n s env with
        | error stop env' => simp [hs] at htail
        | ok flow' env' =>
          rw [hs] at htail
          rw [bind_of_ok hs]
          cases flow' with
          | normal => exact ih (Task.nodesOf_singleton.symm.trans htail)
          | _ => simp [nodesOf] at htail

/-- A statement that is executed after an optional one is that one or comes later. -/
theorem split_stmt? {s : Option Stmt} {l : List Moment}
    (h : (Task.stmt? s).nodes n env ++ l = before ++ ⟨m, .stmt child, env₁⟩ :: after) :
    (before = [] ∧ n = m + 1 ∧ s = some child ∧ env = env₁ ∧ l = after) ∨
      ∃ before', l = before' ++ ⟨m, .stmt child, env₁⟩ :: after := by
  cases n with
  | zero => exact .inr ⟨before, by simpa [Task.nodes] using h⟩
  | succ n =>
    rw [Task.nodes_succ rfl] at h
    cases s with
    | none => exact .inr ⟨before, by simpa [Task.parts, nodesOf] using h⟩
    | some s =>
      simp only [Task.parts, Task.nodesOf_singleton, Task.nodes_stmt, List.singleton_append] at h
      rcases split_cons h with ⟨hbefore, rfl, rfl, henv, hafter⟩ | hlater
      · exact .inl ⟨hbefore, rfl, rfl, henv, hafter⟩
      · exact .inr hlater

/-- What a loop does when its body has finished. -/
theorem loop_of_signal {c step : Option Expr} {body : Stmt}
    (h : (Task.loop c step body).nodes n env = before ++ ⟨m, .stmt child, env₁⟩ :: after)
    (hchild : stmt m child env₁ = .ok flow env₂) :
    match flow.afterPass with
    | some flow => after = [] ∧ loop n c step body env = .ok flow env₂
    | none =>
      after = nodesOf m ((Task.expr? step).andThen m env₂ fun _ env => [(.loop c step body, env)]) ∧
      loop n c step body env = (do let _ ← expr? m step; loop m c step body) env₂ := by
  induction n generalizing env before with
  | zero => simp [Task.nodes] at h
  | succ n ih =>
    rw [Task.nodes_succ rfl] at h
    simp only [Task.parts, Task.nodesOf_andThen, Task.perform] at h
    simp only [loop]
    obtain ⟨between, -, h⟩ := (Task.noStmts_nodes rfl).split h
    cases htest : test n c env with
    | error stop env' => simp [htest] at h
    | ok holds env' =>
      rw [htest] at h
      rw [bind_of_ok htest]
      cases holds with
      | false => simp [nodesOf] at h
      | true =>
        simp only [if_true, Task.nodesOf_andThen, Task.nodes_stmt, Task.perform,
          List.singleton_append] at h
        simp only [if_true]
        rcases split_cons h with ⟨-, rfl, rfl, rfl, rfl⟩ | ⟨between', htail⟩
        · rw [bind_of_ok hchild, hchild]
          cases hpass : flow.afterPass with
          | some flow' => exact ⟨by simp [hpass, nodesOf], rfl⟩
          | none => exact ⟨by simp only [hpass], rfl⟩
        · cases hbody : stmt n body env' with
          | error stop env₃ => simp [hbody] at htail
          | ok flow' env₃ =>
            rw [hbody] at htail
            rw [bind_of_ok hbody]
            cases hpass : flow'.afterPass with
            | some flow'' => simp [hpass, nodesOf] at htail
            | none =>
              simp only [hpass, Task.nodesOf_andThen, Task.perform] at htail
              obtain ⟨between'', -, htail⟩ := (Task.noStmts_nodes rfl).split htail
              cases hstep : expr? n step env₃ with
              | error stop env₄ => simp [hstep] at htail
              | ok v env₄ =>
                rw [hstep] at htail
                simp only [bind_of_ok hstep]
                exact ih (Task.nodesOf_singleton.symm.trans htail)

/-- What a loop that tests its condition last does when its body has finished. -/
theorem doLoop_of_signal {c : Expr} {body : Stmt}
    (h : (Task.doLoop body c).nodes n env = before ++ ⟨m, .stmt child, env₁⟩ :: after)
    (hchild : stmt m child env₁ = .ok flow env₂) :
    match flow.afterPass with
    | some flow => after = [] ∧ doLoop n body c env = .ok flow env₂
    | none =>
      after = nodesOf m ((Task.expr c).andThen m env₂ fun v env =>
        if v.bool? = some true then [(.doLoop body c, env)] else []) ∧
      doLoop n body c env =
        (do if ← condition c (← expr m c) then doLoop m body c else return .normal) env₂ := by
  induction n generalizing env before with
  | zero => simp [Task.nodes] at h
  | succ n ih =>
    rw [Task.nodes_succ rfl] at h
    simp only [Task.parts, Task.nodesOf_andThen, Task.nodes_stmt, Task.perform,
      List.singleton_append] at h
    simp only [doLoop]
    rcases split_cons h with ⟨-, rfl, rfl, rfl, rfl⟩ | ⟨between, htail⟩
    · rw [bind_of_ok hchild, hchild]
      cases hpass : flow.afterPass with
      | some flow' => exact ⟨by simp [hpass, nodesOf], rfl⟩
      | none => exact ⟨by simp only [hpass], rfl⟩
    · cases hbody : stmt n body env with
      | error stop env₃ => simp [hbody] at htail
      | ok flow' env₃ =>
        rw [hbody] at htail
        rw [bind_of_ok hbody]
        cases hpass : flow'.afterPass with
        | some flow'' => simp [hpass, nodesOf] at htail
        | none =>
          simp only [hpass, Task.nodesOf_andThen, Task.perform] at htail
          obtain ⟨between', -, htail⟩ := (Task.noStmts_nodes_expr n c env₃).split htail
          cases hc : expr n c env₃ with
          | error stop env₄ => simp [hc] at htail
          | ok v env₄ =>
            rw [hc] at htail
            by_cases hv : v.bool? = some true
            · simp only [bind_of_ok hc, bind_of_ok (condition_of_bool? c env₄ hv), if_true]
              simp only [hv, if_true, Task.nodesOf_singleton] at htail
              exact ih htail
            · simp [hv, nodesOf] at htail

/-- An `if` ends as the branch that it executes. -/
theorem ifElse_of_signal {c : Expr} {a : Stmt} {b : Option Stmt} {range : Range}
    (h : executed n (.ifElse c a b range) env = before ++ ⟨m, .stmt child, env₁⟩ :: after)
    (hchild : stmt m child env₁ = .ok flow env₂) :
    after = [] ∧ stmt (n + 1) (.ifElse c a b range) env = .ok flow env₂ := by
  simp only [executed, stmtParts, Task.nodesOf_andThen, Task.perform] at h
  obtain ⟨between, -, h⟩ := (Task.noStmts_nodes_expr n c env).split h
  simp only [stmt]
  cases hc : expr n c env with
  | error stop env' => simp [hc] at h
  | ok v env' =>
    rw [hc] at h
    rw [bind_of_ok hc]
    cases hv : v.bool? with
    | none => simp [hv, nodesOf] at h
    | some holds =>
      rw [bind_of_ok (condition_of_bool? c env' hv)]
      cases holds with
      | true =>
        simp only [hv, Task.nodesOf_singleton, Task.nodes_stmt] at h
        rcases split_cons h with ⟨-, rfl, rfl, rfl, rfl⟩ | ⟨before', hlater⟩
        · exact ⟨rfl, hchild⟩
        · simp at hlater
      | false =>
        simp only [hv, Task.nodesOf_singleton] at h
        rcases split_stmt? ((List.append_nil _).trans h) with
            ⟨-, rfl, rfl, rfl, rfl⟩ | ⟨before', hlater⟩
        · exact ⟨rfl, hchild⟩
        · simp at hlater

/-- A switch stops at the first signal among its statements, and takes a `break`. -/
theorem switch_of_signal {subject : Expr} {body : Block} {range : Range}
    (h : executed n (.switch subject body range) env = before ++ ⟨m, .stmt child, env₁⟩ :: after)
    (hchild : stmt m child env₁ = .ok flow env₂) (hflow : flow ≠ .normal) :
    after = [] ∧
    stmt (n + 1) (.switch subject body range) env = .ok flow.afterSwitch env₂.closed := by
  simp only [executed, stmtParts, Task.nodesOf_andThen, Task.perform] at h
  obtain ⟨between, -, h⟩ := (Task.noStmts_nodes_expr n subject env).split h
  simp only [stmt]
  cases hsubject : expr n subject env with
  | error stop env' => simp [hsubject] at h
  | ok v env' =>
    rw [hsubject] at h
    rw [bind_of_ok hsubject]
    obtain ⟨between', -, h⟩ := (Task.noStmts_nodes rfl).split h
    cases hentry : entry n v body.stmts none env' with
    | error stop env'' => simp [hentry] at h
    | ok rest env'' =>
      rw [hentry] at h
      rw [bind_of_ok hentry]
      cases rest with
      | none => simp [nodesOf] at h
      | some rest =>
        obtain ⟨hafter, hrun⟩ := stmts_of_signal (Task.nodesOf_singleton.symm.trans h) hchild hflow
        exact ⟨hafter, bind_of_ok hrun⟩

/-- A `for` comes to its loop whatever the flow of the statement with which it begins. -/
theorem forLoop_of_init {init : Option Stmt} {env' : Env} (c step : Option Expr) (body : Stmt)
    (scope : ScopeId) (range : Range) (h : stmt? n init env.opened = .ok flow env') :
    stmt (n + 1) (.forLoop init c step body scope range) env =
      (do
        let flow ← loop n c step body
        pop
        return flow) env' := bind_of_ok h

theorem bind_congr_env {α β : Type} {act act' : Eval α} (k : α → Eval β) (h : act env = act' env₁) :
    (act >>= k) env = (act' >>= k) env₁ := by
  simp only [Bind.bind, EStateM.bind, h]

/-- A `for` loop goes on or stops after a pass as the signal of its body says. -/
theorem forLoop_of_signal {init : Option Stmt} {c step : Option Expr} {body : Stmt}
    {scope : ScopeId} {range : Range}
    (h : executed n (.forLoop init c step body scope range) env =
      before ++ ⟨m, .stmt child, env₁⟩ :: after)
    (hinit : before = [] → init = none) (hchild : stmt m child env₁ = .ok flow env₂) :
    match flow.afterPass with
    | some flow =>
      after = [] ∧ stmt (n + 1) (.forLoop init c step body scope range) env = .ok flow env₂.closed
    | none =>
      after = nodesOf m (nextParts m (.forLoop init c step body scope range) env₂) ∧
      stmt (n + 1) (.forLoop init c step body scope range) env =
        nextPass m (.forLoop init c step body scope range) env₂ := by
  simp only [executed, stmtParts, Task.nodesOf_andThen, Task.perform] at h
  rcases split_stmt? h with ⟨hbefore, -, hsome, -⟩ | ⟨before', hlater⟩
  · exact absurd (hinit hbefore) (by simp [hsome])
  · cases hstart : stmt? n init env.opened with
    | error stop env' => simp [hstart] at hlater
    | ok flow' env' =>
      rw [hstart] at hlater
      rw [forLoop_of_init c step body scope range hstart]
      have hend := loop_of_signal (Task.nodesOf_singleton.symm.trans hlater) hchild
      cases hpass : flow.afterPass with
      | some flow'' =>
        rw [hpass] at hend
        exact ⟨hend.1, bind_of_ok hend.2⟩
      | none =>
        rw [hpass] at hend
        refine ⟨hend.1, (bind_congr_env _ hend.2).trans ?_⟩
        rw [bind_assoc]
        rfl

/-- A `while` loop goes on or stops after a pass as the signal of its body says. -/
theorem whileDo_of_signal {c : Expr} {body : Stmt} {range : Range}
    (h : executed n (.whileDo c body range) env = before ++ ⟨m, .stmt child, env₁⟩ :: after)
    (hchild : stmt m child env₁ = .ok flow env₂) :
    match flow.afterPass with
    | some flow => after = [] ∧ stmt (n + 1) (.whileDo c body range) env = .ok flow env₂
    | none =>
      after = nodesOf m (nextParts m (.whileDo c body range) env₂) ∧
      stmt (n + 1) (.whileDo c body range) env = nextPass m (.whileDo c body range) env₂ := by
  simp only [executed, stmtParts, Task.nodesOf_singleton] at h
  have hend := loop_of_signal h hchild
  cases m with
  | zero => exact absurd hchild nofun
  | succ m =>
    -- the missing step is a step that does nothing
    have hstep : nodesOf (m + 1) ((Task.expr? none).andThen (m + 1) env₂ fun _ env =>
        [(.loop (some c) none body, env)]) =
            nodesOf (m + 1) (nextParts (m + 1) (.whileDo c body range) env₂) :=
      rfl
    rwa [hstep] at hend

/-- A statement obeys the signals of the statements that it executes, but for the one with
which a `for` begins. -/
theorem stmt_of_signal {s : Stmt} (h : executed n s env = before ++ ⟨m, .stmt child, env₁⟩ :: after)
    (hinit : before = [] → s.init? = none) (hchild : stmt m child env₁ = .ok flow env₂)
    (hflow : flow ≠ .normal) :
    match s.onSignal flow with
    | some flow => after = [] ∧ stmt (n + 1) s env = .ok flow (s.closing env₂)
    | none => after = nodesOf m (nextParts m s env₂) ∧ stmt (n + 1) s env = nextPass m s env₂ := by
  have hplain (hloop : s.kind.isLoop = false) (hswitch : s.kind ≠ .switch) :
      s.onSignal flow = some flow := by
    cases flow <;> simp [Stmt.onSignal, hloop, hswitch]
  have hloop (hs : s.kind.isLoop) : s.onSignal flow = flow.afterPass := by
    cases flow with
    | normal => exact absurd rfl hflow
    | _ => simp [Stmt.onSignal, Flow.afterPass, hs]
  cases s with
  | expr e range =>
    exact absurd (Task.nodesOf_singleton.symm.trans h) (Task.noStmts_nodes_expr n e env).ne
  | decl | «return» =>
    exact absurd (Task.nodesOf_singleton.symm.trans h) (Task.noStmts_nodes rfl).ne
  | caseLabel | defaultLabel | «continue» | «break» => simp [executed, stmtParts, nodesOf] at h
  | block b =>
    rw [hplain rfl nofun]
    obtain ⟨hafter, hrun⟩ := stmts_of_signal (Task.nodesOf_singleton.symm.trans h) hchild hflow
    exact ⟨hafter, bind_of_ok hrun⟩
  | ifElse c a b range =>
    rw [hplain rfl nofun]
    exact ifElse_of_signal h hchild
  | whileDo c body range =>
    rw [hloop rfl]
    exact whileDo_of_signal h hchild
  | doWhile body c range =>
    rw [hloop rfl]
    exact doLoop_of_signal (Task.nodesOf_singleton.symm.trans h) hchild
  | forLoop init c step body scope range =>
    rw [hloop rfl]
    exact forLoop_of_signal h hinit hchild
  | «switch» subject body range =>
    have hswitch : (Stmt.switch subject body range).onSignal flow = some flow.afterSwitch := by
      cases flow <;> rfl
    rw [hswitch]
    exact switch_of_signal h hchild hflow

end

end Eval

end Rill
