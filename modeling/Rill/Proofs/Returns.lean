import Rill.Proofs.History
import Rill.Proofs.Signals

/-!
# Returns

A `return` is a signal that no statement consumes, so it is the last statement of its activation,
unless it is lost in the beginning of a `for`. `Eval.Obeys` says this of what a step starts in its
activation, and of the step itself that it ends as the `return` inside it has ended, with frames
dropped at most (`Eval.Unwound`). The induction is on the number of steps, with one rule for what
goes on after a statement (`Eval.Obeys.bind`).

`Eval.signals_kept` takes this together with what one signal does, and `Eval.return_lost` is a
`for` that loses one.
-/

namespace Rill

/-- An environment without its `k` innermost frames. -/
def Env.dropped (env : Env) : Nat → Env
  | 0 => env
  | k + 1 => (env.dropped k).closed

namespace Eval

variable {n m : Nat} {env env₁ : Env}

namespace Task

/-- Whether a task is a `return`. -/
def isReturn : Task → Bool
  | .stmt (.return ..) => true
  | _ => false

/-- What a task does that executes statements of the activation to which it belongs. -/
def execution? (n : Nat) : Task → Option (Eval Flow)
  | .stmt s => some (Eval.stmt n s)
  | .stmt? s => some (Eval.stmt? n s)
  | .stmts ss => some (Eval.stmts n ss)
  | .loop c step body => some (Eval.loop n c step body)
  | .doLoop body c => some (Eval.doLoop n body c)
  | _ => none

/-- What tasks start in the activation that they belong to. -/
def activationOf (n : Nat) (l : List (Task × Env)) : List Moment :=
  l.flatMap fun p => p.1.activation n p.2

end Task

/-- Whether a `for` is started that begins with a `return`, or with a statement that ends in one. -/
def Moment.losesReturn : Moment → Bool
  | ⟨n + 1, .stmt (.forLoop init ..), env⟩ =>
    match stmt? n init env.opened with
    | .ok (.return _) _ => true
    | _ => false
  | _ => false

/-- Moments at which no `return` is executed. -/
def NoReturn (l : List Moment) : Prop := ∀ x ∈ l, x.task.isReturn = false

/-! ## How a return ends what is around it -/

/-- A step ends as a `return` inside it has ended, with frames dropped at most. -/
inductive Unwound : EStateM.Result Stop Env Flow → EStateM.Result Stop Env Flow → Prop
  | stopped (stop : Stop) (env : Env) : Unwound (.error stop env) (.error stop env)
  | returned (v : Value) (env : Env) (k : Nat) :
    Unwound (.ok (.return v) env) (.ok (.return v) (env.dropped k))

/-- Where no `for` loses a `return`, the first `return` among the moments of a step is followed by
the evaluation of its own value only, and the step ends as this `return` has ended. -/
def Obeys (l : List Moment) (r : EStateM.Result Stop Env Flow) : Prop :=
  (∀ x ∈ l, x.losesReturn = false) → ∀ before m value range env₁ after,
    l = before ++ ⟨m, .stmt (.return value range), env₁⟩ :: after →
    ⟨m, .stmt (.return value range), env₁⟩ :: after =
      (Task.stmt (.return value range)).activation m env₁ ∧
    Unwound (stmt m (.return value range) env₁) r

/-- What is done in a frame of its own ends as it has ended inside, with one frame dropped more. -/
theorem Unwound.closing {act : Eval Flow} {after : Flow → Flow} {r : EStateM.Result Stop Env Flow}
    (hafter : ∀ v, after (.return v) = .return v) (h : Unwound r (act env)) :
    Unwound r ((do let flow ← act; pop; return after flow : Eval Flow) env) := by
  cases hact : act env with
  | error stop env' =>
    rw [hact] at h
    rw [bind_of_error hact]
    cases h
    exact .stopped stop env'
  | ok flow env' =>
    rw [hact] at h
    rw [bind_of_ok hact]
    cases h with
    | returned v env₂ k =>
      have hend : (pop >>= fun _ => pure (after (.return v))) (env₂.dropped k) =
          .ok (.return v) (env₂.dropped (k + 1)) := by
        rw [hafter]
        rfl
      rw [hend]
      exact .returned v env₂ (k + 1)

namespace Obeys

variable {l l' : List Moment} {r r' : EStateM.Result Stop Env Flow}

/-- Without a `return` there is nothing to obey. -/
theorem of_noReturn (h : NoReturn l) : Obeys l r := by
  rintro - before m value range env₁ after rfl
  exact absurd (h ⟨m, .stmt (.return value range), env₁⟩ (by simp)) (by simp [Task.isReturn])

theorem nil : Obeys [] r := of_noReturn (List.forall_mem_nil _)

/-- A step may be replaced by one that ends the same way. -/
theorem mono (h : Obeys l r) (himp : ∀ r₁, Unwound r₁ r → Unwound r₁ r') : Obeys l r' := by
  intro hkept before m value range env₁ after hl
  obtain ⟨hend, hunwound⟩ := h hkept before m value range env₁ after hl
  exact ⟨hend, himp _ hunwound⟩

theorem of_eq (h : Obeys l r') (heq : r = r') : Obeys l r := heq ▸ h

/-- Moments without a `return` may come before. -/
theorem append (h : NoReturn l) (h' : Obeys l' r) : Obeys (l ++ l') r := by
  intro hkept before m value range env₁ after hl
  have hkept' : ∀ x ∈ l', x.losesReturn = false := fun x hx =>
    hkept x (List.mem_append_right _ hx)
  rcases List.append_eq_append_iff.1 hl with ⟨between, -, hl'⟩ | ⟨between, rfl, hafter⟩
  · exact h' hkept' between m value range env₁ after hl'
  · cases between with
    | nil => exact h' hkept' [] m value range env₁ after hafter.symm
    | cons x between =>
      obtain ⟨rfl, -⟩ := List.cons.inj hafter
      exact absurd (h ⟨m, .stmt (.return value range), env₁⟩ (by simp)) (by simp [Task.isReturn])

theorem cons {x : Moment} (hx : x.task.isReturn = false) (h : Obeys l r) : Obeys (x :: l) r :=
  append (l := [x]) (by simpa [NoReturn] using hx) h

/-- The rule for what goes on after a step that executes statements : if it has finished with a
`return`, nothing does. -/
theorem bind {act : Eval Flow} {k : Flow → Eval Flow} (h : Obeys l (act env))
    (hstop : ∀ stop env', act env = .error stop env' → l' = [])
    (hreturned : ∀ v env', act env = .ok (.return v) env' →
      l' = [] ∧ k (.return v) env' = .ok (.return v) env')
    (hnext : ∀ flow env', act env = .ok flow env' → Obeys l' (k flow env')) :
    Obeys (l ++ l') ((act >>= k) env) := by
  intro hkept before m value range env₁ after hl
  have hkeptl : ∀ x ∈ l, x.losesReturn = false := fun x hx => hkept x (List.mem_append_left _ hx)
  have hkept' : ∀ x ∈ l', x.losesReturn = false := fun x hx =>
    hkept x (List.mem_append_right _ hx)
  cases hact : act env with
  | error stop env' =>
    rw [hact] at h
    rw [bind_of_error hact]
    rw [hstop stop env' hact, List.append_nil] at hl
    obtain ⟨hend, hunwound⟩ := h hkeptl before m value range env₁ after hl
    refine ⟨hend, ?_⟩
    generalize stmt m (.return value range) env₁ = r₁ at hunwound ⊢
    cases hunwound
    exact .stopped stop env'
  | ok flow env' =>
    rw [hact] at h
    rw [bind_of_ok hact]
    rcases List.append_eq_append_iff.1 hl with ⟨between, -, hl'⟩ | ⟨between, hfirst, hafter⟩
    · exact hnext flow env' hact hkept' between m value range env₁ after hl'
    · cases between with
      | nil => exact hnext flow env' hact hkept' [] m value range env₁ after hafter.symm
      | cons x between =>
        -- the `return` is in the first step, which has ended as it did, so nothing comes after
        obtain ⟨rfl, htail⟩ := List.cons.inj hafter
        obtain ⟨hend, hunwound⟩ := h hkeptl before m value range env₁ between hfirst
        generalize stmt m (.return value range) env₁ = r₁ at hunwound ⊢
        cases hunwound with
        | returned v env₂ j =>
          obtain ⟨hnil, hk⟩ := hreturned v _ hact
          rw [htail, hnil, hk]
          exact ⟨by simpa using hend, .returned v env₂ j⟩

end Obeys

/-- Where no statement is started, no `return` is. -/
theorem NoStmts.noReturn {l : List Moment} (h : NoStmts l) : NoReturn l := by
  intro x hx
  have hexec := h x hx
  cases ht : x.task with
  | stmt s => simp [ht, Task.isExecution] at hexec
  | _ => rfl

/-! ## Every step -/

namespace Task

variable {t : Task} {r : EStateM.Result Stop Env Flow}

/-- A task comes first in its activation, and its parts follow. -/
theorem activation_succ (ht : t.isCall = false) :
    t.activation (n + 1) env = ⟨n + 1, t, env⟩ :: activationOf n (t.parts n env) := by
  simp [activation, course, activationOf, ht]

theorem activationOf_singleton : activationOf n [(t, env)] = t.activation n env := by
  simp [activationOf]

/-- The activation of a task comes before that of what follows it. -/
theorem activationOf_andThen (next : t.Answer → Env → List (Task × Env)) :
    activationOf n (t.andThen n env next) =
      t.activation n env ++ activationOf n ((t.andThen n env next).tail) := by
  simp [activationOf, andThen]

/-- After a task that finishes, the next ones are started. -/
theorem tail_andThen_of_ok {a : t.Answer} (next : t.Answer → Env → List (Task × Env))
    (h : t.perform n env = .ok a env₁) : (t.andThen n env next).tail = next a env₁ := by
  simp [andThen, h]

/-- After a task that stops, nothing is started. -/
theorem tail_andThen_of_error {stop : Stop} (next : t.Answer → Env → List (Task × Env))
    (h : t.perform n env = .error stop env₁) : (t.andThen n env next).tail = [] := by
  simp [andThen, h]

/-- What evaluates and executes no statements has no `return` among its moments. -/
theorem obeys_of_isExecution (ht : t.isExecution = false) : Obeys (t.activation n env) r :=
  .of_noReturn (noStmts_activation ht).noReturn

/-- A task with one part ends as the part. -/
theorem obeys_of_part {part : Task} (hcall : t.isCall = false) (hreturn : t.isReturn = false)
    (hparts : t.parts n env = [(part, env₁)]) (h : Obeys (part.activation n env₁) r) :
    Obeys (t.activation (n + 1) env) r := by
  rw [activation_succ hcall, hparts, activationOf_singleton]
  exact .cons hreturn h

/-- The rule for what goes on after a task that executes no statements. -/
theorem bind_of_eval {k : t.Answer → Eval Flow} {next : t.Answer → Env → List (Task × Env)}
    (ht : t.isExecution = false)
    (hnext : ∀ a env', Obeys (activationOf n (next a env')) (k a env')) :
    Obeys (activationOf n (t.andThen n env next)) ((t.perform n >>= k) env) := by
  rw [activationOf_andThen]
  refine .append (noStmts_activation ht).noReturn ?_
  cases hrun : t.perform n env with
  | error stop env' =>
    rw [tail_andThen_of_error next hrun]
    exact .nil
  | ok a env' =>
    rw [tail_andThen_of_ok next hrun, bind_of_ok hrun]
    exact hnext a env'

theorem obeys_zero {act : Eval Flow} (ht : t.execution? 0 = some act) :
    Obeys (t.activation 0 env) (act env) := by
  intro _ before m value range env₁ after hl
  rcases List.cons_eq_append_iff.1 hl with ⟨-, hhead⟩ | ⟨before', -, htail⟩
  · obtain ⟨hmoment, rfl⟩ := List.cons.inj hhead
    obtain ⟨rfl, rfl, rfl⟩ := Moment.mk.inj hmoment
    obtain rfl := Option.some.inj ht
    exact ⟨rfl, .stopped .exhausted env₁⟩
  · simp at htail

/-- A `return` is its own last statement. -/
theorem obeys_return (n : Nat) (value : Option Expr) (range : Range) (env : Env) :
    Obeys ((Task.stmt (.return value range)).activation (n + 1) env)
      (Eval.stmt (n + 1) (.return value range) env) := by
  intro _ before m value' range' env₁ after hl
  have hsplit := hl
  rw [activation_succ rfl] at hsplit
  rcases List.cons_eq_append_iff.1 hsplit with ⟨rfl, hhead⟩ | ⟨before', -, htail⟩
  · obtain ⟨hmoment, -⟩ := List.cons.inj hhead
    obtain ⟨rfl, hreturn, rfl⟩ := Moment.mk.inj hmoment
    cases hreturn
    refine ⟨hl.symm, ?_⟩
    cases hvalue : Eval.expr? n value env₁ with
    | error stop env₂ =>
      have hstop : Eval.stmt (n + 1) (.return value range) env₁ = .error stop env₂ :=
        bind_of_error hvalue
      rw [hstop]
      exact .stopped stop env₂
    | ok v env₂ =>
      obtain ⟨env₃, hend⟩ : ∃ env₃, Eval.stmt (n + 1) (.return value range) env₁ =
          .ok (.return v) env₃ := ⟨_, bind_of_ok hvalue⟩
      rw [hend]
      exact .returned v env₃ 0
  · -- the value has no `return` in it
    have hvalue : NoReturn ((Task.expr? value).activation n env) :=
      (noStmts_activation rfl).noReturn
    have hmem : ⟨m, .stmt (.return value' range'), env₁⟩ ∈ (Task.expr? value).activation n env := by
      rw [← activationOf_singleton]
      exact htail ▸ List.mem_append_right _ List.mem_cons_self
    exact absurd (hvalue _ hmem) (by simp [isReturn])

section

variable (ih : ∀ t act env, execution? n t = some act → Obeys (t.activation n env) (act env))

include ih

/-- The rule for what goes on after a statement. -/
theorem bind_of_stmt {s : Stmt} {k : Flow → Eval Flow} {next : Flow → Env → List (Task × Env)}
    (hreturned : ∀ v env', next (.return v) env' = [] ∧ k (.return v) env' = .ok (.return v) env')
    (hnext : ∀ flow env', Obeys (activationOf n (next flow env')) (k flow env')) :
    Obeys (activationOf n ((Task.stmt s).andThen n env next)) ((Eval.stmt n s >>= k) env) := by
  rw [activationOf_andThen]
  refine .bind (ih (.stmt s) _ env rfl) (fun stop env' hrun => ?_) (fun v env' hrun => ?_)
    fun flow env' hrun => ?_
  · rw [tail_andThen_of_error (t := .stmt s) next hrun]
    rfl
  · rw [tail_andThen_of_ok (t := .stmt s) next hrun, (hreturned v env').1]
    exact ⟨rfl, (hreturned v env').2⟩
  · rw [tail_andThen_of_ok (t := .stmt s) next hrun]
    exact hnext flow env'

/-- Statements stop at a `return`. -/
theorem obeys_stmts (ss : List Stmt) (env : Env) :
    Obeys ((Task.stmts ss).activation (n + 1) env) (Eval.stmts (n + 1) ss env) := by
  rw [activation_succ rfl]
  refine .cons rfl ?_
  cases ss with
  | nil => exact .nil
  | cons s rest =>
    refine bind_of_stmt ih (fun v env' => ⟨rfl, rfl⟩) fun flow env' => ?_
    cases flow with
    | normal =>
      rw [activationOf_singleton]
      exact ih (.stmts rest) _ env' rfl
    | _ => exact .nil

/-- A loop stops at a `return` in its body. -/
theorem obeys_loop (c step : Option Expr) (body : Stmt) (env : Env) :
    Obeys ((Task.loop c step body).activation (n + 1) env) (Eval.loop (n + 1) c step body env) := by
  rw [activation_succ rfl]
  simp only [Eval.loop]
  refine .cons rfl (bind_of_eval rfl fun holds env₁ => ?_)
  cases holds with
  | false => exact .nil
  | true =>
    refine bind_of_stmt ih (fun v env₂ => ⟨rfl, rfl⟩) fun flow env₂ => ?_
    cases flow.afterPass with
    | some flow' => exact .nil
    | none =>
      refine bind_of_eval rfl fun _ env₃ => ?_
      rw [activationOf_singleton]
      exact ih (.loop c step body) _ env₃ rfl

theorem obeys_doLoop (body : Stmt) (c : Expr) (env : Env) :
    Obeys ((Task.doLoop body c).activation (n + 1) env) (Eval.doLoop (n + 1) body c env) := by
  rw [activation_succ rfl]
  simp only [Eval.doLoop]
  refine .cons rfl (bind_of_stmt ih (fun v env₁ => ⟨rfl, rfl⟩) fun flow env₁ => ?_)
  cases flow.afterPass with
  | some flow' => exact .nil
  | none =>
    refine bind_of_eval rfl fun v env₂ => ?_
    by_cases hv : v.bool? = some true
    · simp only [hv, if_true, activationOf_singleton]
      have hrest := ih (.doLoop body c) _ env₂ rfl
      exact hrest.of_eq (bind_of_ok (condition_of_bool? c env₂ hv))
    · simp only [hv, if_false]
      exact .nil

/-- An `if` ends as the branch that it executes. -/
theorem obeys_ifElse (c : Expr) (a : Stmt) (b : Option Stmt) (range : Range) (env : Env) :
    Obeys ((Task.stmt (.ifElse c a b range)).activation (n + 1) env)
      (Eval.stmt (n + 1) (.ifElse c a b range) env) := by
  rw [activation_succ rfl]
  simp only [Eval.stmt]
  refine .cons rfl (bind_of_eval rfl fun v env' => ?_)
  cases hv : v.bool? with
  | none => exact .nil
  | some holds =>
    have hbranch := bind_of_ok (condition_of_bool? c env' hv)
      (k := fun holds => if holds then Eval.stmt n a else Eval.stmt? n b)
    cases holds with
    | true =>
      rw [activationOf_singleton]
      exact (ih (.stmt a) _ env' rfl).of_eq hbranch
    | false =>
      rw [activationOf_singleton]
      exact (ih (.stmt? b) _ env' rfl).of_eq hbranch

/-- The one statement whose flow is dropped is the first of a `for`; if it is a `return`, the `for`
is one that loses it. -/
theorem obeys_forLoop (init : Option Stmt) (c step : Option Expr) (body : Stmt) (scope : ScopeId)
    (range : Range) (env : Env) :
    Obeys ((Task.stmt (.forLoop init c step body scope range)).activation (n + 1) env)
      (Eval.stmt (n + 1) (.forLoop init c step body scope range) env) := by
  rw [activation_succ rfl]
  by_cases hlost :
      Moment.losesReturn ⟨n + 1, .stmt (.forLoop init c step body scope range), env⟩ = true
  · exact fun hkept => absurd (hkept _ List.mem_cons_self) (by simp [hlost])
  · suffices hinside :
        Obeys (activationOf n
          (andThen n (.stmt? init) env.opened fun _ env => [(.loop c step body, env)]))
          ((do let _ ← Eval.stmt? n init; let flow ← Eval.loop n c step body; pop; return flow :
            Eval Flow) env.opened) from .cons rfl hinside
    rw [activationOf_andThen]
    refine .bind (ih (.stmt? init) _ env.opened rfl) (fun stop env' hrun => ?_)
      (fun v env' hrun => ?_) fun flow env' hrun => ?_
    · rw [tail_andThen_of_error (t := .stmt? init) _ hrun]
      rfl
    · have hinit : Eval.stmt? n init env.opened = .ok (.return v) env' := hrun
      exact absurd (by simp only [Moment.losesReturn, hinit]) hlost
    · rw [tail_andThen_of_ok (t := .stmt? init) _ hrun, activationOf_singleton]
      exact (ih (.loop c step body) _ env' rfl).mono fun _ => .closing fun _ => rfl

/-- A switch stops at a `return` among its statements. -/
theorem obeys_switch (subject : Expr) (body : Block) (range : Range) (env : Env) :
    Obeys ((Task.stmt (.switch subject body range)).activation (n + 1) env)
      (Eval.stmt (n + 1) (.switch subject body range) env) := by
  rw [activation_succ rfl]
  simp only [Eval.stmt]
  refine .cons rfl (bind_of_eval rfl fun v env' => bind_of_eval rfl fun rest env'' => ?_)
  cases rest with
  | none => exact .nil
  | some rest =>
    rw [activationOf_singleton]
    exact (ih (.stmts rest) _ env''.opened rfl).mono fun _ => .closing fun _ => rfl

/-- Each form of statement hands on a `return` inside it. -/
theorem obeys_stmt (s : Stmt) (env : Env) :
    Obeys ((Task.stmt s).activation (n + 1) env) (Eval.stmt (n + 1) s env) := by
  cases s with
  | ifElse c a b range => exact obeys_ifElse ih c a b range env
  | forLoop init c step body scope range => exact obeys_forLoop ih init c step body scope range env
  | «switch» subject body range => exact obeys_switch ih subject body range env
  | «return» value range => exact obeys_return n value range env
  | expr | decl => exact obeys_of_part rfl rfl rfl (obeys_of_isExecution rfl)
  | block b =>
    have hbody := ih (.stmts b.stmts) _ env.opened rfl
    exact obeys_of_part rfl rfl rfl (hbody.mono fun _ => .closing fun _ => rfl)
  | whileDo c body range =>
    exact obeys_of_part rfl rfl rfl (ih (.loop (some c) none body) _ env rfl)
  | doWhile body c range => exact obeys_of_part rfl rfl rfl (ih (.doLoop body c) _ env rfl)
  | caseLabel | defaultLabel | «continue» | «break» =>
    rw [activation_succ rfl]
    exact .cons rfl .nil

end

/-- Where no `for` loses a `return`, a `return` ends what is executed around it. -/
theorem obeys_activation (n : Nat) (t : Task) (act : Eval Flow) (env : Env)
    (ht : t.execution? n = some act) : Obeys (t.activation n env) (act env) := by
  induction n generalizing t act env with
  | zero => exact obeys_zero ht
  | succ n ih =>
    cases t with
    | stmt s => exact Option.some.inj ht ▸ obeys_stmt ih s env
    | stmts ss => exact Option.some.inj ht ▸ obeys_stmts ih ss env
    | loop c step body => exact Option.some.inj ht ▸ obeys_loop ih c step body env
    | doLoop body c => exact Option.some.inj ht ▸ obeys_doLoop ih body c env
    | stmt? s =>
      obtain rfl := Option.some.inj ht
      cases s with
      | none =>
        rw [activation_succ rfl]
        exact .cons rfl .nil
      | some s => exact obeys_of_part rfl rfl rfl (ih (.stmt s) _ env rfl)
    | _ => cases ht

end Task

/-- A `return` ends its call. If it has stopped, the call stops there with it; and if it has
returned, the call drops the frames that have been opened above its own, gives what is then the
value of its result, and drops its own. -/
theorem run_of_return {f : Func} {args : List Value} {before after : List Moment}
    {value : Option Expr} {range : Range}
    (hl : (Task.run f args).activation n env =
      before ++ ⟨m, .stmt (.return value range), env₁⟩ :: after)
    (hkept : ∀ x ∈ (Task.run f args).activation n env, x.losesReturn = false) :
    ⟨m, .stmt (.return value range), env₁⟩ :: after =
      (Task.stmt (.return value range)).activation m env₁ ∧
    (∀ stop env₂, stmt m (.return value range) env₁ = .error stop env₂ →
      run n f args env = .error stop env₂) ∧
    ∀ flow env₂, stmt m (.return value range) env₁ = .ok flow env₂ →
      ∃ k, (env₂.dropped k).stack.depth = env.stack.depth + 1 ∧
        run n f args env = (do let value ← result; pop; return value) (env₂.dropped k) := by
  cases n with
  | zero => cases before <;> simp [Task.activation, Task.course] at hl
  | succ n =>
    rw [Task.activation_succ rfl] at hl hkept
    obtain ⟨before, htail⟩ : ∃ before', Task.activationOf n ((Task.run f args).parts n env) =
        before' ++ ⟨m, .stmt (.return value range), env₁⟩ :: after := by
      rcases List.cons_eq_append_iff.1 hl with ⟨-, hhead⟩ | ⟨before', -, htail⟩
      · cases hhead
      · exact ⟨before', htail⟩
    have hkept' := fun x hx => hkept x (List.mem_cons_of_mem _ hx)
    simp only [Task.parts] at htail hkept'
    cases henter : enter f args env with
    | error stop env' => simp [henter, Task.activationOf] at htail
    | ok _ start =>
      simp only [henter, Task.activationOf_singleton] at htail hkept'
      have hobeys := Task.obeys_activation n (.stmts f.body.stmts) _ start rfl
      obtain ⟨hend, hunwound⟩ := hobeys hkept' before m value range env₁ after htail
      refine ⟨hend, fun stop env₂ hstop => ?_, fun flow env₂ hreturn => ?_⟩
      · rw [hstop] at hunwound
        rw [run_succ, bind_of_ok henter]
        cases hbody : stmts n f.body.stmts start with
        | ok flow env' => rw [hbody] at hunwound; cases hunwound
        | error stop' env' =>
          rw [hbody] at hunwound
          cases hunwound
          exact bind_of_error hbody
      · rw [hreturn] at hunwound
        rw [run_succ, bind_of_ok henter]
        cases hbody : stmts n f.body.stmts start with
        | error stop' env' => rw [hbody] at hunwound; cases hunwound
        | ok flow' env' =>
          rw [hbody] at hunwound
          cases hunwound with
          | returned v env₂ k =>
            have hstart := (grown_enter henter).stack.depth_eq
            have hleft := ((leaves_perform n (.stmts f.body.stmts)).grown hbody).stack.depth_eq
            exact ⟨k, hleft.trans hstart, bind_of_ok hbody⟩

/-- Signals are kept, but for those of the statement with which a `for` begins. When another
statement that is executed directly by a statement finishes with a signal, the statement around it
executes no more of its parts and finishes with that signal, except that a loop finishes normally
after a `break` of its body and comes to its next pass after a `continue`, and a `switch` finishes
normally after a `break`. A `for` comes to its loop whatever the flow of the statement with which
it begins. So, unless a `for` of the activation begins with a `return`, once a `return` is executed
the activation has nothing left but to evaluate the value of that `return` : these are the last
moments of the call, whose history is a path to what the call leaves, and the call ends where the
`return` has ended, with its frames dropped and the value of its result given. -/
theorem signals_kept (n : Nat) (env : Env) :
    (∀ s before m child env₁ after flow env₂,
      executed n s env = before ++ ⟨m, .stmt child, env₁⟩ :: after →
      (before = [] → s.init? = none) → stmt m child env₁ = .ok flow env₂ → flow ≠ .normal →
      match s.onSignal flow with
      | some flow => after = [] ∧ stmt (n + 1) s env = .ok flow (s.closing env₂)
      | none => after = nodesOf m (nextParts m s env₂) ∧ stmt (n + 1) s env = nextPass m s env₂) ∧
    (∀ init c step body scope range flow env₁, stmt? n init env.opened = .ok flow env₁ →
      stmt (n + 1) (.forLoop init c step body scope range) env =
        (do
          let flow ← loop n c step body
          pop
          return flow) env₁) ∧
    ∀ f args before m value range env₁ after,
      (Task.run f args).activation n env =
        before ++ ⟨m, .stmt (.return value range), env₁⟩ :: after →
      (∀ x ∈ (Task.run f args).activation n env, x.losesReturn = false) →
      ⟨m, .stmt (.return value range), env₁⟩ :: after =
        (Task.stmt (.return value range)).activation m env₁ ∧
      env.Path ((Task.run f args).history n env) (left (run n f args env)) ∧
      (∀ x ∈ (Task.run f args).activation n env,
        x.task.history x.steps x.env <:+: (Task.run f args).history n env) ∧
      (∀ stop env₂, stmt m (.return value range) env₁ = .error stop env₂ →
        run n f args env = .error stop env₂) ∧
      ∀ flow env₂, stmt m (.return value range) env₁ = .ok flow env₂ →
        ∃ k, (env₂.dropped k).stack.depth = env.stack.depth + 1 ∧
          run n f args env = (do let value ← result; pop; return value) (env₂.dropped k) := by
  refine ⟨?_, ?_, ?_⟩
  · intro s before m child env₁ after flow env₂ h hinit hchild hflow
    exact stmt_of_signal h hinit hchild hflow
  · intro init c step body scope range flow env₁ h
    exact forLoop_of_init c step body scope range h
  · intro f args before m value range env₁ after h hkept
    obtain ⟨hend, hstop, hreturn⟩ := run_of_return h hkept
    refine ⟨hend, Task.path_history n (.run f args) env, fun x hx => ?_, hstop, hreturn⟩
    exact Task.isInfix_history_of_course hx

/-- A loop that goes on after a `continue`, and a function that returns out of a
block in a `for`. -/
theorem signals_kept_in_loops :
    let x : Expr := .name ⟨"x", .unknown⟩
    let unset : Stmt :=
      .expr (.binary .assign x (.literal (.bool false) .unknown) .unknown) .unknown
    let body : Stmt := .block ⟨[unset, .continue .unknown, .break .unknown], ⟨1⟩, .unknown⟩
    let env : Env := { stack := { bottom := ⟨[("x", ⟨.var, .bool true⟩)]⟩ } }
    let env₂ : Env := { stack := { bottom := ⟨[("x", ⟨.var, .bool false⟩)]⟩ } }
    let back : Stmt := .return (some x) .unknown
    let once : Stmt := .forLoop none none none (.block ⟨[back, body], ⟨3⟩, .unknown⟩) ⟨2⟩ .unknown
    let f : Func :=
      ⟨⟨0⟩, ⟨"f", .unknown⟩, none, [], ⟨[once, unset], ⟨1⟩, .unknown⟩, ⟨0⟩, ⟨1⟩, .unknown⟩
    let slot (v : Value) : Frame := ⟨[("return", ⟨.var, v⟩)]⟩
    let inside (v : Value) : Env :=
      { env with stack := { env.stack with inner := [⟨[]⟩, ⟨[]⟩, slot v] } }
    let env₁ := inside .null
    let way := (Task.run f []).activation 12 env
    (executed 10 (.whileDo x body .unknown) env =
        [⟨8, .expr x, env⟩] ++ ⟨9, .stmt body, env⟩ :: [⟨7, .expr x, env₂⟩] ∧
      stmt 11 (.whileDo x body .unknown) env = loop 9 (some x) none body env₂) ∧
    (way = way.take 8 ++ ⟨6, .stmt back, env₁⟩ ::
        [⟨5, .expr? (some x), env₁⟩, ⟨4, .expr x, env₁⟩] ∧
      [⟨6, .stmt back, env₁⟩, ⟨5, .expr? (some x), env₁⟩, ⟨4, .expr x, env₁⟩] =
        (Task.stmt back).activation 6 env₁) ∧
    stmt 6 back env₁ = .ok (.return (.bool true)) (inside (.bool true)) ∧
    ∃ k, ((inside (.bool true)).dropped k).stack.depth = 2 ∧
      run 12 f [] env =
        (do let value ← result; pop; return value) ((inside (.bool true)).dropped k) := by
  intro x unset body env env₂ back once f slot inside env₁ way
  have hexecuted : executed 10 (.whileDo x body .unknown) env =
      [⟨8, .expr x, env⟩] ++ ⟨9, .stmt body, env⟩ :: [⟨7, .expr x, env₂⟩] := rfl
  have hbody : stmt 9 body env = .ok (.continue .unknown) env₂ := rfl
  have hlast : way.drop 8 =
      [⟨6, .stmt back, env₁⟩, ⟨5, .expr? (some x), env₁⟩, ⟨4, .expr x, env₁⟩] := rfl
  have hway : way = way.take 8 ++ ⟨6, .stmt back, env₁⟩ ::
      [⟨5, .expr? (some x), env₁⟩, ⟨4, .expr x, env₁⟩] := by rw [← hlast, List.take_append_drop]
  have hkept : way.all (!·.losesReturn) = true := by decide +kernel
  have hback : stmt 6 back env₁ = .ok (.return (.bool true)) (inside (.bool true)) := rfl
  obtain ⟨hend, -, -, -, hreturn⟩ :=
    (signals_kept 12 env).2.2 _ _ _ _ _ _ _ _ hway (by simpa using hkept)
  refine ⟨⟨hexecuted, ?_⟩, ⟨hway, hend⟩, hback, hreturn _ _ hback⟩
  exact ((signals_kept 10 env).1 _ _ _ _ _ _ _ _ hexecuted (by simp) hbody (by simp)).2

/-- A `for` that begins with a `return` finishes normally, and its function goes on with the next
statement. -/
theorem return_lost :
    let back : Stmt := .return (some (.literal (.int 1) .unknown)) .unknown
    let never : Option Expr := some (.literal (.bool false) .unknown)
    let skip : Stmt := .block ⟨[], ⟨3⟩, .unknown⟩
    let lost : Stmt := .forLoop (some back) never none skip ⟨2⟩ .unknown
    let f : Func :=
      ⟨⟨0⟩, ⟨"f", .unknown⟩, none, [], ⟨[lost, skip], ⟨1⟩, .unknown⟩, ⟨0⟩, ⟨1⟩, .unknown⟩
    let env : Env := { stack := { inner := [⟨[("return", ⟨.var, .null⟩)]⟩] } }
    let last : Env := { stack := { inner := [⟨[("return", ⟨.var, .int 1⟩)]⟩] } }
    (∃ after, executed 9 lost env = ⟨8, .stmt back, env.opened⟩ :: after ∧ after ≠ []) ∧
    stmt 8 back env.opened = .ok (.return (.int 1)) last.opened ∧
    stmt 10 lost env = .ok .normal last ∧
    ((Task.run f []).activation 12 {})[4]? = some ⟨8, .stmt back, env.opened⟩ ∧
    ((Task.run f []).activation 12 {})[11]? = some ⟨9, .stmt skip, last⟩ := by
  intro back never skip lost f env last
  exact ⟨⟨_, rfl, nofun⟩, rfl, rfl, rfl, rfl⟩

end Eval

end Rill
