import Mathlib.Data.List.Chain
import Rill.Proofs.Balance

/-!
# The history of an evaluation

The course of an evaluation lists the tasks that are started. Its history lists the environments
that it goes through (`Task.history`) : where a task starts, the histories of its parts, and where
it ends, whether it finishes or stops.

An evaluation changes the environment in few ways (`Env.Effect`) : it opens and drops frames, binds
a name in the innermost frame, assigns to a name that is found as a variable, writes the value of a
`return`, writes output, and counts the calls it is in. Nothing happens between two neighbours in a
history but a single effect (`Env.Change`), or what the start of a call does at once. So a history
is a path from where the evaluation starts to where it ends (`Task.path_history`), and a fact about
what a change keeps can be followed along it. In particular the call depth stays within the limit,
or where it was if it was above already (`Env.Path.depthKept`).

This ties the course to the evaluator. `Eval.Traced` says that a step is what the tasks make it
that it is said to start : their histories make up its path, it ends as it would if they ended so
with another number of steps, and it uses up its steps only in one of them. What a plan starts makes
it so (`Eval.Plan.traced`), with one rule for what goes on after a task (`Eval.Traced.bind`).
-/

namespace Rill

/-! ## Effects -/

/-- One change that an evaluation makes to the environment. -/
inductive Env.Effect : Env → Env → Prop
  | push (env : Env) : Effect env env.opened
  | pop (env : Env) : Effect env env.closed
  | add {env : Env} {name : String} {symbol : Symbol} {stack : Stack}
      (h : env.stack.add? name symbol = some stack) : Effect env { env with stack := stack }
  | assign {env : Env} {name : String} {old value : Value} {stack : Stack}
      (hfind : env.stack.find? name = some ⟨.var, old⟩)
      (hset : env.stack.set? name value = some stack) : Effect env { env with stack := stack }
  | result {env : Env} {value : Value} {stack : Stack}
      (h : env.stack.set? Eval.resultName value = some stack) :
      Effect env { env with stack := stack }
  | write (env : Env) (pieces : List String) :
      Effect env { env with sink := (env.sink.writeAll pieces).2 }
  | enter {env : Env} (h : ¬env.maxCallDepth ≤ env.callDepth) : Effect env env.deeper
  | leave (env : Env) : Effect env { env with callDepth := env.callDepth - 1 }

/-- What happens between two neighbours in a history. -/
inductive Env.Change : Env → Env → Prop
  | none (env : Env) : Change env env
  | effect {env env' : Env} (h : env.Effect env') : Change env env'
  | enter (f : Func) (args : List Value) (env : Env) :
      Change env (Eval.left (Eval.enter f args env))

/-- A path of changes from an environment to another, with all environments on it. -/
inductive Env.Path : Env → List Env → Env → Prop
  | stay (env : Env) : Path env [env] env
  | step {env env₁ env' : Env} {l : List Env} (h : env.Change env₁) (rest : Path env₁ l env') :
      Path env (env :: l) env'

namespace Env.Path

variable {env env₁ env' : Env} {l rest : List Env}

theorem head_eq {x : Env} (h : Path env (x :: l) env') : x = env := by cases h <;> rfl

/-- Two paths may be joined where one ends and the other starts. -/
theorem join (h : Path env l env₁) (h' : Path env₁ (env₁ :: rest) env') :
    Path env (l ++ rest) env' := by
  induction h with
  | stay => exact h'
  | step hchange _ ih => exact .step hchange (ih h')

/-- A path with its first environment twice can begin at one from which a change leads there. -/
theorem reheaded {before : Env} (hchange : before.Change env)
    (h : Path env (env :: env :: l) env') : Path before (before :: env :: l) env' := by
  cases h with
  | step _ hrest =>
    obtain rfl := hrest.head_eq
    exact .step hchange hrest

/-- A path ends with the environment it ends in. -/
theorem getLast?_eq (h : Path env l env') : l.getLast? = some env' := by
  induction h with
  | stay => rfl
  | step _ hrest ih =>
    cases hrest with
    | stay => rfl
    | step => exact ih

/-- Neighbours on a path differ by one change. -/
theorem isChain (h : Path env l env') : l.IsChain Env.Change := by
  induction h with
  | stay => exact .singleton _
  | step hchange hrest ih =>
    cases hrest with
    | stay => exact .cons_cons hchange ih
    | step => exact .cons_cons hchange ih

end Env.Path

/-! ## The call depth along a path -/

namespace Env

variable {env env' : Env}

/-- The second environment has the limit of the first, and its call depth is within the limit or
not above that of the first. -/
def DepthKept (env env' : Env) : Prop :=
  env'.maxCallDepth = env.maxCallDepth ∧ env'.callDepth ≤ max env.maxCallDepth env.callDepth

theorem DepthKept.of_eq (hmax : env'.maxCallDepth = env.maxCallDepth)
    (hdepth : env'.callDepth = env.callDepth) : env.DepthKept env' :=
  ⟨hmax, hdepth ▸ Nat.le_max_right _ _⟩

/-- Depth is kept along two ways that are joined. -/
theorem DepthKept.trans {env'' : Env} (h : env.DepthKept env') (h' : env'.DepthKept env'') :
    env.DepthKept env'' := by
  obtain ⟨hmax, hdepth⟩ := h
  obtain ⟨hmax', hdepth'⟩ := h'
  rw [hmax] at hmax' hdepth'
  exact ⟨hmax', by omega⟩

/-- The start of a call opens a frame, at the depth that the call has been given. -/
theorem depthKept_enter (f : Func) (args : List Value) (env : Env) :
    env.DepthKept (Eval.left (Eval.enter f args env)) := by
  have hleaves : Eval.Leaves true
      (Eval.add Eval.resultName ⟨.var, .null⟩ f.range >>= fun _ => Eval.bindArgs f.params args) :=
    (Eval.leaves_add _ _ _).bind fun _ => Eval.leaves_bindArgs _ _
  exact .of_eq (hleaves.maxCallDepth_left env.opened) (hleaves.callDepth_left env.opened)

/-- Only a call that the limit allows adds to the depth. -/
theorem Change.depthKept (h : env.Change env') : env.DepthKept env' := by
  cases h with
  | none => exact .of_eq rfl rfl
  | enter f args => exact depthKept_enter f args env
  | effect h =>
    cases h with
    | push | pop | add | assign | result | write => exact .of_eq rfl rfl
    | enter hlimit =>
      refine ⟨rfl, ?_⟩
      simp only [Env.deeper]
      omega
    | leave =>
      refine ⟨rfl, ?_⟩
      simp only
      omega

/-- Depth is kept everywhere on a path. -/
theorem Path.depthKept {l : List Env} (h : env.Path l env') : ∀ e ∈ l, env.DepthKept e := by
  induction h with
  | stay env =>
    have hsame : env.DepthKept env := .of_eq rfl rfl
    simpa using hsame
  | step hchange _ ih =>
    refine List.forall_mem_cons.2 ⟨.of_eq rfl rfl, fun e he => ?_⟩
    exact hchange.depthKept.trans (ih e he)

end Env

namespace Eval

/-! ## Histories -/

/-- The environments that a task goes through, from where it starts to where it ends. -/
def Task.history : Nat → Task → Env → List Env
  | 0, _, env => [env]
  | n + 1, t, env =>
    env :: ((t.parts n env).flatMap fun p => history n p.1 p.2) ++ [left (t.perform (n + 1) env)]

/-- The environments that a step goes through which starts some tasks. -/
def historyOf {α : Type} (n : Nat) (act : Eval α) (ps : List (Task × Env)) (env : Env) : List Env :=
  env :: (ps.flatMap fun p => p.1.history n p.2) ++ [left (act env)]

/-- The history of a task starts with the environment of the task. -/
theorem Task.exists_history_eq_cons (n : Nat) (t : Task) (env : Env) :
    ∃ l, t.history n env = env :: l := by
  cases n with
  | zero => exact ⟨[], rfl⟩
  | succ n => exact ⟨_, rfl⟩

/-- The history of a task that a step starts is part of that of the step. -/
theorem isInfix_historyOf {α : Type} {n : Nat} {ps : List (Task × Env)} {p : Task × Env}
    (hp : p ∈ ps) (act : Eval α) (env : Env) : p.1.history n p.2 <:+: historyOf n act ps env := by
  obtain ⟨before, after, rfl⟩ := List.append_of_mem hp
  unfold historyOf
  rw [List.flatMap_append, List.flatMap_cons, ← List.append_assoc]
  exact (List.infix_append _ _ _).trans (List.infix_append [env] _ _)

/-- The history of a task contains the history of each task that is started on the way, whether
one looks below the leaves or not. -/
theorem Task.isInfix_history_of_course {leaf : Task → Bool} {n : Nat} {t : Task} {env : Env}
    {m : Moment} (hm : m ∈ t.course leaf n env) :
    m.task.history m.steps m.env <:+: t.history n env := by
  induction n generalizing t env with
  | zero =>
    obtain rfl : m = ⟨0, t, env⟩ := by simpa [course] using hm
    exact List.infix_refl _
  | succ n ih =>
    rcases mem_course_succ.1 hm with rfl | ⟨-, p, hp, hm⟩
    · exact List.infix_refl _
    · exact (ih hm).trans (isInfix_historyOf hp (t.perform (n + 1)) env)

/-- The history of every task in the course of another is part of its history. -/
theorem Task.isInfix_history {n : Nat} {t : Task} {env : Env} {m : Moment}
    (hm : m ∈ t.fullCourse n env) : m.task.history m.steps m.env <:+: t.history n env :=
  isInfix_history_of_course hm

/-! ## Single changes -/

variable {α β : Type} {n : Nat} {env env₁ : Env} {t : Task}

/-- A step that makes at most one change, and does not use up steps. -/
structure Single (act : Eval α) (env : Env) : Prop where
  change : env.Change (left (act env))
  spent : spent (act env) = false

namespace Single

/-- A step that changes nothing makes at most one change. -/
theorem still {act : Eval α} (h : left (act env) = env) (hspent : Eval.spent (act env) = false) :
    Single act env := by
  refine ⟨?_, hspent⟩
  rw [h]
  exact .none env

theorem pure (a : α) (env : Env) : Single (pure a) env := .still rfl rfl

/-- A step with one after it that changes nothing. -/
theorem bind {act : Eval α} {k : α → Eval β} (h : Single act env)
    (hk : ∀ a env', act env = .ok a env' → left (k a env') = env' ∧ Eval.spent (k a env') = false) :
    Single (act >>= k) env := by
  have hchange := h.change
  have hspent := h.spent
  cases hact : act env with
  | ok a env' =>
    obtain ⟨hleft, hk⟩ := hk a env' hact
    rw [hact] at hchange
    refine ⟨?_, ?_⟩
    · rw [bind_of_ok hact, hleft]
      exact hchange
    · rw [bind_of_ok hact, hk]
  | error stop env' =>
    rw [hact] at hchange hspent
    refine ⟨?_, ?_⟩
    · rw [bind_of_error hact]
      exact hchange
    · rw [bind_of_error hact]
      cases stop with
      | failed e => rfl
      | exhausted => cases hspent

theorem find? (name : String) (env : Env) : Single (find? name) env := .still rfl rfl

theorem lookup (ident : Ident) (env : Env) : Single (lookup ident) env := by
  refine (find? ident.name env).bind fun found env' _ => ?_
  cases found with
  | some symbol => exact ⟨rfl, rfl⟩
  | none =>
    dsimp only
    split <;> exact ⟨rfl, rfl⟩

theorem of_eq {act act' : Eval α} (h : Single act' env) (heq : act env = act' env) :
    Single act env := by
  obtain ⟨hchange, hspent⟩ := h
  rw [← heq] at hchange hspent
  exact ⟨hchange, hspent⟩

/-- To add a name makes at most one change. -/
theorem add (name : String) (symbol : Symbol) (range : Range) (env : Env) :
    Single (add name symbol range) env := by
  cases h : env.stack.add? name symbol with
  | some stack =>
    have hadd : Eval.add name symbol range env = .ok () { env with stack := stack } := by
      simp only [Eval.add, h]
    exact ⟨hadd ▸ .effect (.add h), hadd ▸ rfl⟩
  | none =>
    have hadd : Eval.add name symbol range env =
        .error (.failed ⟨.duplicateSymbol name, range⟩) env := by
      simp only [Eval.add, h]
    exact ⟨hadd ▸ .none env, hadd ▸ rfl⟩

/-- A name that is not bound is left alone. -/
theorem set {name : String} {value : Value}
    (h : ∀ stack, env.stack.set? name value = some stack → env.Effect { env with stack := stack }) :
    Single (set name value) env := by
  refine ⟨?_, rfl⟩
  change env.Change { env with stack := (env.stack.set? name value).getD env.stack }
  cases hset : env.stack.set? name value with
  | some stack => exact .effect (h stack hset)
  | none => exact .none env

/-- To print makes at most one change, of the sink. -/
theorem print (args : List Value) (env : Env) : Single (print args) env := by
  have heffect := Env.Effect.write env (args.flatMap env.cutting.pieces ++ ["\n"])
  cases h : env.sink.writeAll (args.flatMap env.cutting.pieces ++ ["\n"]) with
  | mk refused sink =>
    rw [h] at heffect
    cases refused with
    | none =>
      have hprint : Eval.print args env = .ok () { env with sink := sink } := by
        simp only [Eval.print, write, h]
      exact ⟨hprint ▸ .effect heffect, hprint ▸ rfl⟩
    | some message =>
      have hprint : Eval.print args env =
          .error (.failed ⟨.output message, .unknown⟩) { env with sink := sink } := by
        simp only [Eval.print, write, h]
      exact ⟨hprint ▸ .effect heffect, hprint ▸ rfl⟩

/-- To find what is assigned to changes nothing and uses up no steps. -/
theorem left_target (e : Expr) (env : Env) :
    left (target e env) = env ∧ Eval.spent (target e env) = false := by
  unfold target
  cases e.ident? with
  | none => exact ⟨rfl, rfl⟩
  | some ident =>
    have hfind : Eval.find? ident.name env = .ok (env.stack.find? ident.name) env := rfl
    dsimp only
    rw [bind_of_ok hfind]
    cases env.stack.find? ident.name with
    | none => exact ⟨rfl, rfl⟩
    | some symbol =>
      obtain ⟨kind, value⟩ := symbol
      cases kind <;> exact ⟨rfl, rfl⟩

/-- An assignment or a step changes at most the variable that it finds. -/
theorem update (e : Expr) (range : Range) (new : Value → Except RuntimeFault Value)
    (answer : Value → Value → Value) (env : Env) :
    Single (target e >>= fun p => Eval.located range (new p.2) >>= fun v => Eval.set p.1 v >>=
      fun _ => Pure.pure (answer p.2 v)) env := by
  obtain ⟨hstill, hspent⟩ := left_target e env
  cases htarget : target e env with
  | error stop env₁ =>
    rw [htarget] at hstill hspent
    refine .still ?_ ?_
    · rw [bind_of_error htarget]
      exact hstill
    · rw [bind_of_error htarget]
      cases stop with
      | failed e => rfl
      | exhausted => cases hspent
  | ok p env₁ =>
    obtain ⟨name, old⟩ := p
    obtain ⟨rfl, -, hfind⟩ := ok_of_target htarget
    refine Single.of_eq ?_ (bind_of_ok htarget)
    cases hnew : new old with
    | error fault => exact .still rfl rfl
    | ok v =>
      have hset : Single (Eval.set name v) env₁ := .set fun stack hset => .assign hfind hset
      exact (hset.bind (k := fun _ => Pure.pure (answer old v)) fun _ _ _ => ⟨rfl, rfl⟩).of_eq rfl

end Single

theorem spent_bind {act : Eval α} {k : α → Eval β} (h : spent (act env) = false)
    (hk : ∀ a env', spent (k a env') = false) : spent ((act >>= k) env) = false := by
  cases hact : act env with
  | ok a env' => rw [bind_of_ok hact, hk]
  | error stop env' =>
    rw [hact] at h
    rw [bind_of_error hact]
    cases stop with
    | failed e => rfl
    | exhausted => cases h

/-- To bind arguments uses up no steps. -/
theorem spent_bindArgs (params : List Variable) (args : List Value) (env : Env) :
    spent (bindArgs params args env) = false := by
  induction params generalizing args env with
  | nil => rfl
  | cons param params ih =>
    cases args with
    | nil => rfl
    | cons arg args => exact spent_bind (Single.add _ _ _ env).spent fun _ env' => ih args env'

/-- The start of a call counts as one change. -/
theorem Single.enter (f : Func) (args : List Value) (env : Env) : Single (enter f args) env := by
  have hpush : Eval.spent (push env) = false := rfl
  refine ⟨.enter f args env, spent_bind hpush fun _ opened => ?_⟩
  exact spent_bind (Single.add _ _ _ opened).spent fun _ start => spent_bindArgs f.params args start

theorem Single.leave (flow : Flow) (env : Env) : Single (leave flow) env := by
  cases flow with
  | «break» range => exact .still rfl rfl
  | «continue» range => exact .still rfl rfl
  | _ =>
    have hread : ∃ v, result env = .ok v env := by
      have hfind : Eval.find? resultName env = .ok (env.stack.find? resultName) env := rfl
      unfold result
      rw [bind_of_ok hfind]
      cases env.stack.find? resultName <;> exact ⟨_, rfl⟩
    obtain ⟨v, hread⟩ := hread
    have hpop : Single (pop >>= fun _ => Pure.pure v) env := ⟨.effect (.pop env), rfl⟩
    exact hpop.of_eq (bind_of_ok hread)

/-- The last step of a task makes at most one change. -/
theorem Step.single {gains : Bool} (s : Step gains α) (env : Env) : Single s.run env := by
  cases s with
  | done a => exact .pure a env
  | fail e => exact .still rfl rfl
  | lookup ident => exact .lookup ident env
  | update e range new answer => exact .update e range new answer env
  | deliver v => exact (Single.set fun _ hset => .result hset).bind fun _ _ _ => ⟨rfl, rfl⟩
  | bind name symbol range => exact .add name symbol range env
  | print args => exact (Single.print args env).bind fun _ _ _ => ⟨rfl, rfl⟩

/-! ## Rules -/

/-- What a step starts makes it what it is. The step is given for each number of steps; with `n` of
them it follows a path by way of the tasks that it starts, and starts them with the frames of
before in their places. It would do the same with another number of steps with which these tasks
end in the same way, and it uses up its steps only if one of the tasks does. -/
structure Traced (n : Nat) (act : Nat → Eval α) (env : Env) (ps : List (Task × Env)) : Prop where
  path : env.Path (historyOf n (act n) ps env) (left (act n env))
  under : ∀ p ∈ ps, env.stack.Under p.2.stack
  agree : ∀ m, (∀ p ∈ ps, p.1.perform m p.2 = p.1.perform n p.2) → act m env = act n env
  spent : spent (act n env) = ps.any fun p => Eval.spent (p.1.perform n p.2)

namespace Traced

variable {act : Nat → Eval α} {ps : List (Task × Env)}

/-- A step that starts nothing. -/
theorem done (hagree : ∀ m, act m env = act n env) (h : Single (act n) env) :
    Traced n act env [] where
  path := .step h.change (.stay _)
  under := List.forall_mem_nil _
  agree m _ := hagree m
  spent := h.spent

/-- A step that stops before it starts anything. -/
theorem stopped {e : RuntimeError} (h : ∀ m, act m env = .error (.failed e) env₁)
    (hchange : env.Change env₁) : Traced n act env [] := by
  refine .done (fun m => (h m).trans (h n).symm) ⟨?_, ?_⟩
  · rw [h]
    exact hchange
  · rw [h]
    rfl

theorem of_eq {act' : Nat → Eval α} (h : Traced n act' env ps)
    (heq : ∀ m, act m env = act' m env) : Traced n act env ps where
  path := by
    unfold historyOf
    rw [heq]
    exact h.path
  under := h.under
  agree m hm := by rw [heq, heq, h.agree m hm]
  spent := by rw [heq, h.spent]

/-- A step that begins with a change. -/
theorem started {act' : Nat → Eval α} (h : Traced n act' env₁ ((t, env₁) :: ps))
    (hchange : env.Change env₁) (hunder : env.stack.Under env₁.stack)
    (heq : ∀ m, act m env = act' m env₁) : Traced n act env ((t, env₁) :: ps) where
  path := by
    have hpath := h.path
    unfold historyOf at hpath ⊢
    obtain ⟨l, hl⟩ := t.exists_history_eq_cons n env₁
    simp only [List.flatMap_cons, hl, List.cons_append] at hpath ⊢
    rw [heq]
    exact hpath.reheaded hchange
  under p hp := hunder.trans (h.under p hp)
  agree m hm := by rw [heq, heq, h.agree m hm]
  spent := by rw [heq, h.spent]

end Traced

/-! ## Evaluation -/

section

variable (ih : ∀ (t : Task) (env : Env), env.Path (t.history n env) (left (t.perform n env)))

include ih

/-- The rule for what goes on after a task. -/
theorem Traced.bind {k : Nat → t.Answer → Eval β} {next : t.Answer → Env → List (Task × Env)}
    (hnext : ∀ a env', t.perform n env = .ok a env' →
      Traced n (fun m => k m a) env' (next a env')) :
    Traced n (fun m => t.perform m >>= k m) env (t.andThen n env next) := by
  have htask := ih t env
  cases hrun : t.perform n env with
  | error stop env' =>
    have hparts : t.andThen n env next = [(t, env)] := by simp only [Task.andThen, hrun]
    rw [hrun] at htask
    rw [hparts]
    constructor
    · unfold historyOf
      rw [left_bind_of_error hrun, List.flatMap_singleton]
      exact .step (.none env) (htask.join (.step (.none env') (.stay env')))
    · simpa using Stack.Under.refl env.stack
    · intro m hm
      have hagain := (hm _ List.mem_cons_self).trans hrun
      rw [bind_of_error hagain, bind_of_error hrun]
    · rw [bind_of_error hrun, List.any_cons, hrun, List.any_nil, Bool.or_false]
      cases stop <;> rfl
  | ok a env' =>
    have hparts : t.andThen n env next = (t, env) :: next a env' := by
      simp only [Task.andThen, hrun]
    have hrest := hnext a env' hrun
    rw [hrun] at htask
    rw [hparts]
    constructor
    · unfold historyOf
      rw [bind_of_ok hrun, List.flatMap_cons, List.cons_append, List.append_assoc]
      exact .step (.none env) (htask.join hrest.path)
    · refine List.forall_mem_cons.2 ⟨.refl _, fun p hp => ?_⟩
      exact ((leaves_perform n t).grown hrun).stack.under.trans (hrest.under p hp)
    · intro m hm
      obtain ⟨hfirst, hm⟩ := List.forall_mem_cons.1 hm
      rw [bind_of_ok (hfirst.trans hrun), bind_of_ok hrun]
      exact hrest.agree m hm
    · rw [bind_of_ok hrun, hrest.spent, List.any_cons, hrun]
      exact (Bool.false_or _).symm

/-- A call that the limit allows starts the function one call deeper. -/
theorem traced_calling (f : Func) (args : List Value) (range : Range) (env : Env) :
    Traced n (fun m => calling range (run m f args)) env
      (if env.maxCallDepth ≤ env.callDepth then [] else [(.run f args, env.deeper)]) := by
  by_cases hlimit : env.maxCallDepth ≤ env.callDepth
  · rw [if_pos hlimit]
    exact .stopped (fun m => calling_of_limit range hlimit) (.none env)
  · rw [if_neg hlimit]
    constructor
    · unfold historyOf
      rw [List.flatMap_singleton, left_calling range hlimit]
      refine .step (.effect (.enter hlimit)) ((ih (.run f args) env.deeper).join ?_)
      exact .step (.effect (.leave _)) (.stay _)
    · simpa [Env.deeper] using Stack.Under.refl env.stack
    · intro m hm
      exact calling_congr range hlimit (hm _ List.mem_cons_self)
    · rw [spent_calling range hlimit, List.any_cons, List.any_nil, Bool.or_false]
      rfl

/-- The frame of a call and its body, if the frame can be set up. -/
theorem traced_invoke (f : Func) (args : List Value) (env : Env) :
    Traced n (fun m => enter f args >>= fun _ => stmts m f.body.stmts >>= leave) env
      ((Plan.invoke f args : Plan (.given false) Value).parts n env) := by
  have hchange : env.Change (left (enter f args env)) := .enter f args env
  simp only [Plan.parts]
  cases henter : enter f args env with
  | error stop env₁ =>
    have hspent := (Single.enter f args env).spent
    rw [henter] at hchange hspent
    cases stop with
    | failed e => exact .stopped (fun m => bind_of_error henter) hchange
    | exhausted => cases hspent
  | ok _ env₁ =>
    rw [henter] at hchange
    have hbody : Traced n (fun m => stmts m f.body.stmts >>= leave) env₁
        ((Task.stmts f.body.stmts).andThen n env₁ fun _ _ => []) :=
      .bind (t := .stmts f.body.stmts) ih fun flow env' _ => .done (fun _ => rfl) (.leave flow env')
    rw [Task.andThen_nil] at hbody
    have hunder : env.Under env₁ := (Env.under_opened env).trans (grown_enter henter).under
    exact hbody.started hchange hunder.stack fun m => bind_of_ok henter

/-- What a plan starts makes it what it is. -/
theorem Plan.traced {i : Innermost} (plan : Plan i α) (env : Env) :
    Traced n (fun m => plan.run m) env (plan.parts n env) := by
  induction plan generalizing env with
  | step s => exact .done (fun _ => rfl) (s.single env)
  | task t h k ihk => exact .bind ih fun a env' _ => ihk a env'
  | framed t k ihk =>
    have hinside : Traced n (fun m => t.perform m >>= fun a => (k a).run m) env.opened
        (t.andThen n env.opened fun a env => (k a).parts n env) :=
      .bind ih fun a env' _ => ihk a env'
    exact hinside.started (.effect (.push env)) (.push _) fun _ => rfl
  | close a => exact .done (fun _ => rfl) ⟨.effect (.pop env), rfl⟩
  | call f args range => exact traced_calling ih f args range env
  | invoke f args => exact traced_invoke ih f args env
  | main k ihk =>
    rcases mainFunction_cases env with ⟨main, hmain⟩ | ⟨e, hmain⟩
    · simp only [parts, hmain]
      exact (ihk main env).of_eq fun _ => bind_of_ok hmain
    · simp only [parts, hmain]
      exact .stopped (fun m => bind_of_error hmain) (.none env)

/-- A task is what its parts make it. -/
theorem traced_perform (t : Task) (env : Env) :
    Traced n (fun m => t.perform (m + 1)) env (t.parts n env) := by
  simp only [Task.perform_succ, Task.parts_eq]
  exact t.plan.traced ih env

end

namespace Task

/-- The history of a task is a path from where it starts to where it ends. -/
theorem path_history (n : Nat) (t : Task) (env : Env) :
    env.Path (t.history n env) (left (t.perform n env)) := by
  induction n generalizing t env with
  | zero =>
    rw [perform_zero]
    exact .stay env
  | succ n ih => exact (traced_perform ih t env).path

/-- A part starts with the frames of its task still in their places. -/
theorem under_of_mem_parts {p : Task × Env} (hp : p ∈ t.parts n env) :
    env.stack.Under p.2.stack := (traced_perform (path_history n) t env).under p hp

/-- Every task in the course of another is started over the frames of that one. -/
theorem under_of_mem_course {leaf : Task → Bool} {x : Moment} (hx : x ∈ t.course leaf n env) :
    env.stack.Under x.env.stack := by
  induction n generalizing t env with
  | zero =>
    obtain rfl : x = ⟨0, t, env⟩ := by simpa [course] using hx
    exact .refl _
  | succ n ih =>
    rcases mem_course_succ.1 hx with rfl | ⟨-, p, hp, hx⟩
    · exact .refl _
    · exact (under_of_mem_parts hp).trans (ih hx)

/-- A task uses up its steps in one of its parts. -/
theorem spent_perform (n : Nat) (t : Task) (env : Env) :
    spent (t.perform (n + 1) env) = (t.parts n env).any fun p => spent (p.1.perform n p.2) :=
  (traced_perform (path_history n) t env).spent

end Task

/-! ## Programs and scripts -/

/-- A program is traced by the tasks of its plan. -/
theorem traced_program (n : Nat) (p : Program) (env : Env) :
    Traced n (fun m => p.run m) env ((programPlan p).parts n env) := by
  simp only [← run_programPlan]
  exact (programPlan p).traced (Task.path_history n) env

/-- A script is traced by the tasks of its plan. -/
theorem traced_outerStmts (n : Nat) (ss : List Stmt) (env : Env) :
    Traced n (fun m => outerStmts m ss) env ((outerPlan ss).parts n env) := by
  simp only [← run_outerPlan]
  exact (outerPlan ss).traced (Task.path_history n) env

end Eval

end Rill
