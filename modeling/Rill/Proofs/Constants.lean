import Rill.Proofs.Globals

/-!
# Constants stay

A constant or a function that is bound in a frame keeps its kind and its value as long as the frame
is there, unless its name is `return` : nothing that an evaluation does changes it. Frames are told
apart by their height over the global one. Along the history of a session (`Eval.sessionHistory`),
in which programs and scripts are run in one environment and the environment may be reset in
between, a frame is there until the stack is no longer as high (`Eval.constants_kept`).

`Stack.Firm` says what one change keeps in the frames that are there before and after it; the rest
follows by going along the history.
-/

namespace Rill

/-- The symbol that the frame at a height binds a name to. -/
def Stack.symbol? (s : Stack) (height : Nat) (name : String) : Option Symbol :=
  (s.frame? height).bind (·.get? name)

namespace Env

variable {env env' : Env}

/-- As long as its frame is there, a constant or a function stays as it is. -/
theorem symbol?_of_isChain {l : List Env} (h : (env :: l).IsChain fun e e' => e.stack.Firm e'.stack)
    {height : Nat} {x : String} {symbol : Symbol} (hx : x ≠ Eval.resultName)
    (hsymbol : env.stack.symbol? height x = some symbol) (hkind : symbol.kind ≠ .var)
    (hdepth : ∀ e ∈ l, height < e.stack.depth) :
    ∀ e ∈ l, e.stack.symbol? height x = some symbol := by
  induction l generalizing env with
  | nil => exact List.forall_mem_nil _
  | cons e rest ih =>
    obtain ⟨hfirm, hrest⟩ := List.isChain_cons_cons.1 h
    obtain ⟨hheight, hdepth⟩ := List.forall_mem_cons.1 hdepth
    obtain ⟨f', hf'⟩ := Stack.exists_frame? hheight
    obtain ⟨f, hf, hget⟩ := Option.bind_eq_some_iff.1 hsymbol
    have hkept : e.stack.symbol? height x = some symbol :=
      Option.bind_eq_some_iff.2 ⟨f', hf', hfirm height f f' hf hf' x symbol hx hget hkind⟩
    exact List.forall_mem_cons.2 ⟨hkept, ih hrest hkept hdepth⟩

end Env

/-- The fault of an assignment to what is not a variable. -/
def Symbol.refusal (symbol : Symbol) (name : String) : RuntimeFault :=
  if symbol.kind = .const then .constantAssignment name else .invalidAssignment (.function name)

namespace Eval

/-! ## Sessions -/

/-- What can be done with an environment : run a program or a script in it, with a number
of steps, or reset it. -/
inductive Job where
  | program (steps : Nat) (p : Program)
  | script (steps : Nat) (s : Script)
  | reset

namespace Job

def perform : Job → Eval Value
  | .program n p => p.run n
  | .script n s => s.run n
  | .reset => do
    modify Env.reset
    return .null

/-- The environments that a job goes through. -/
def history : Job → Env → List Env
  | .program n p, env => historyOf n (p.run n) ((programPlan p).parts n env) env
  | .script n s, env => historyOf n (s.run n) ((outerPlan s.stmts).parts n env) env
  | .reset, env => [env, env.reset]

/-- The tasks that are started on the way. -/
def course : Job → Env → List Moment
  | .program n p, env => ((programPlan p).parts n env).flatMap fun p => p.1.fullCourse n p.2
  | .script n s, env => ((outerPlan s.stmts).parts n env).flatMap fun p => p.1.fullCourse n p.2
  | .reset, _ => []

end Job

/-- The environments that jobs go through which are done one after the other, whether they
finish or stop. -/
def sessionHistory : List Job → Env → List Env
  | [], env => [env]
  | job :: rest, env => job.history env ++ sessionHistory rest (left (job.perform env))

/-- The tasks that are started on the way. -/
def sessionCourse : List Job → Env → List Moment
  | [], _ => []
  | job :: rest, env => job.course env ++ sessionCourse rest (left (job.perform env))

/-- What a session does between two neighbours in its history. -/
def SessionChange (env env' : Env) : Prop := env.Change env' ∨ env' = env.reset

/-- What a session does keeps constants and functions of the global frame. -/
theorem SessionChange.firm {env env' : Env} (h : SessionChange env env') :
    env.stack.Firm env'.stack := by
  rcases h with h | rfl
  · exact h.firm
  · exact env.firm_reset

/-- Neighbours in the history of a job differ by what a session may do. -/
theorem Job.isChain_history (job : Job) (env : Env) : (job.history env).IsChain SessionChange := by
  cases job with
  | program n p => exact (traced_program n p env).path.isChain.imp fun _ _ => .inl
  | script n s => exact (traced_outerStmts n s.stmts env).path.isChain.imp fun _ _ => .inl
  | reset => exact .cons_cons (.inr rfl) (.singleton _)

theorem Job.getLast?_history (job : Job) (env : Env) :
    (job.history env).getLast? = some (left (job.perform env)) := by
  cases job with
  | program n p => exact (traced_program n p env).path.getLast?_eq
  | script n s => exact (traced_outerStmts n s.stmts env).path.getLast?_eq
  | reset => rfl

theorem head?_sessionHistory (jobs : List Job) (env : Env) :
    (sessionHistory jobs env).head? = some env := by
  cases jobs with
  | nil => rfl
  | cons job rest => cases job <;> rfl

/-- So do neighbours in the history of a session. -/
theorem isChain_sessionHistory (jobs : List Job) (env : Env) :
    (sessionHistory jobs env).IsChain SessionChange := by
  induction jobs generalizing env with
  | nil => exact .singleton env
  | cons job rest ih =>
    refine List.isChain_append.2 ⟨job.isChain_history env, ih _, fun x hx y hy => ?_⟩
    rw [job.getLast?_history] at hx
    rw [head?_sessionHistory] at hy
    obtain rfl := Option.some.inj hx
    obtain rfl := Option.some.inj hy
    exact .inl (.none _)

/-- The history of a task that is started in a session is a part of the history of the session. -/
theorem isInfix_sessionHistory {jobs : List Job} {env : Env} {m : Moment}
    (hm : m ∈ sessionCourse jobs env) :
    m.task.history m.steps m.env <:+: sessionHistory jobs env := by
  have hparts : ∀ {n : Nat} {ps : List (Task × Env)},
      (m ∈ ps.flatMap fun p => p.1.fullCourse n p.2) →
      ∀ act : Eval Value, ∀ env, m.task.history m.steps m.env <:+: historyOf n act ps env := by
    intro n ps hm act env
    obtain ⟨p, hp, hm⟩ := List.mem_flatMap.1 hm
    exact (Task.isInfix_history hm).trans (isInfix_historyOf hp act env)
  induction jobs generalizing env with
  | nil => cases hm
  | cons job rest ih =>
    rcases List.mem_append.1 hm with hm | hm
    · refine List.IsInfix.trans ?_ (List.prefix_append (job.history env) _).isInfix
      cases job with
      | program n p => exact hparts hm _ _
      | script n s => exact hparts hm _ _
      | reset => cases hm
    · exact (ih hm).trans (List.suffix_append _ _).isInfix

/-! ## Refusals -/

variable {env : Env}

/-- Only variables can be assigned to. -/
theorem target_of_kind {e : Expr} {ident : Ident} {symbol : Symbol} (he : e.ident? = some ident)
    (hfind : env.stack.find? ident.name = some symbol) (hkind : symbol.kind ≠ .var) :
    target e env = .error (.failed ⟨symbol.refusal ident.name, e.range⟩) env := by
  have hfound : find? ident.name env = .ok (some symbol) env :=
    congrArg (EStateM.Result.ok · env) hfind
  unfold target
  rw [he]
  dsimp only
  rw [bind_of_ok hfound]
  obtain ⟨kind, value⟩ := symbol
  cases kind with
  | var => exact absurd rfl hkind
  | const => rfl
  | func => rfl

/-- Constants and functions stay as they are bound. The history of a session begins where the
session does, and goes on by single changes; it contains the history of each task that is started,
so also the environment in which a declaration has just bound its name. If somewhere in it a frame
binds a name other than `return` as a constant or a function, then it binds the name to that very
symbol for as long as the stack stays higher than the frame. And a step whose operand is found to be
a constant or a function is refused, and so is an assignment whose right side has been evaluated
when its target is found to be one. -/
theorem constants_kept (jobs : List Job) (env : Env) :
    (sessionHistory jobs env).head? = some env ∧ (sessionHistory jobs env).IsChain SessionChange ∧
    (∀ m ∈ sessionCourse jobs env, m.task.history m.steps m.env <:+: sessionHistory jobs env) ∧
    (∀ e later height x symbol, e :: later <:+: sessionHistory jobs env → x ≠ resultName →
      e.stack.symbol? height x = some symbol → symbol.kind ≠ .var →
      (∀ e' ∈ later, height < e'.stack.depth) →
      ∀ e' ∈ later, e'.stack.symbol? height x = some symbol) ∧
    ∀ (n : Nat) (env : Env) (ident : Ident) (symbol : Symbol), symbol.kind ≠ .var →
      (∀ op operand range, op.isStep → operand.ident? = some ident →
        env.stack.find? ident.name = some symbol →
        expr (n + 1) (.unary op operand range) env =
          .error (.failed ⟨symbol.refusal ident.name, operand.range⟩) env) ∧
      ∀ lhs rhs range v env', lhs.ident? = some ident → expr n rhs env = .ok v env' →
        env'.stack.find? ident.name = some symbol →
        expr (n + 1) (.binary .assign lhs rhs range) env =
          .error (.failed ⟨symbol.refusal ident.name, lhs.range⟩) env' ∧
        ∀ op, expr (n + 1) (.binary (.compound op) lhs rhs range) env =
          .error (.failed ⟨symbol.refusal ident.name, lhs.range⟩) env' := by
  refine ⟨head?_sessionHistory jobs env, isChain_sessionHistory jobs env, fun m hm => ?_, ?_, ?_⟩
  · exact isInfix_sessionHistory hm
  · intro e later height x symbol hsegment hx hsymbol hkind hdepth
    have hsession := isChain_sessionHistory jobs env
    obtain ⟨before, after, hhistory⟩ := hsegment
    rw [← hhistory] at hsession
    have hchain := (List.isChain_append.1 (List.isChain_append.1 hsession).1).2.1.imp fun _ _ =>
      SessionChange.firm
    exact Env.symbol?_of_isChain hchain hx hsymbol hkind hdepth
  · intro n env ident symbol hkind
    refine ⟨fun op operand range hop hoperand hfind => ?_, ?_⟩
    · simp only [expr, hop, if_true]
      exact bind_of_error (target_of_kind hoperand hfind hkind)
    · intro lhs rhs range v env' hlhs hrhs hfind
      have htarget := target_of_kind hlhs hfind hkind
      simp only [expr]
      exact ⟨(bind_of_ok hrhs).trans (bind_of_error htarget),
        fun op => (bind_of_ok hrhs).trans (bind_of_error htarget)⟩

/-- A constant in a block, which a variable of the same name hides in a block inside. The variable
is assigned to, and an assignment to a constant of the global frame is refused; then the
environment is reset. -/
theorem constants_kept_hidden :
    let decl (name : String) (constant value : Bool) : Stmt :=
      .decl
        (.var ⟨⟨0⟩, ⟨name, .unknown⟩, none, some (.literal (.bool value) .unknown), constant, ⟨0⟩,
          .unknown⟩)
        .unknown
    let assign (name : String) (value : Bool) : Expr :=
      .binary .assign (.name ⟨name, .unknown⟩) (.literal (.bool value) .unknown) .unknown
    let inside : Stmt := .block
      ⟨[decl "x" false true, .expr (assign "x" false) .unknown, .expr (assign "y" true) .unknown],
        ⟨2⟩, .unknown⟩
    let script : Script :=
      ⟨[.block ⟨[decl "x" true true, inside], ⟨1⟩, .unknown⟩], .unknown, .initial, .empty⟩
    let env : Env := { stack := ⟨[], ⟨[("y", ⟨.const, .bool false⟩)]⟩⟩ }
    let history := sessionHistory [.script 20 script, .reset] env
    (∃ e later symbol, e :: later <:+: history ∧ symbol.kind = .const ∧
      symbol.value.bool? = some true ∧
      (∀ e' ∈ later, 1 < e'.stack.depth) ∧
      (∃ e' ∈ later, (e'.stack.find? "x").bind (·.value.bool?) = some false) ∧
      ∀ e' ∈ later, e'.stack.symbol? 1 "x" = some symbol) ∧
    env.stack.find? "y" = some ⟨.const, .bool false⟩ ∧
    expr 2 (assign "y" true) env = .error (.failed ⟨.constantAssignment "y", .unknown⟩) env := by
  intro decl assign inside script env history
  obtain ⟨-, -, -, hkept, hrefused⟩ := constants_kept [.script 20 script, .reset] env
  refine ⟨?_, rfl, ?_⟩
  · have hsegment : (history.drop 9).take 36 <:+: history :=
      (List.take_prefix _ _).isInfix.trans (List.drop_suffix _ _).isInfix
    have hbound : ∃ e ∈ ((history.drop 9).take 36).head?, ∃ symbol ∈ e.stack.symbol? 1 "x",
        symbol.kind = .const ∧ symbol.value.bool? = some true := by decide +kernel
    have hdepth : ∀ e ∈ ((history.drop 9).take 36).tail, 1 < e.stack.depth := by decide +kernel
    have hassigned : ∃ e ∈ ((history.drop 9).take 36).tail,
        (e.stack.find? "x").bind (·.value.bool?) = some false := by decide +kernel
    obtain ⟨e, he, symbol, hsymbol, hkind, hvalue⟩ := hbound
    obtain ⟨later, hlater⟩ := List.head?_eq_some_iff.1 he
    rw [hlater] at hsegment hdepth hassigned
    refine ⟨e, later, symbol, hsegment, hkind, hvalue, hdepth, hassigned, ?_⟩
    exact hkept e later 1 "x" symbol hsegment (by decide) hsymbol (by simp [hkind]) hdepth
  · have hassign := (hrefused 1 env ⟨"y", .unknown⟩ ⟨.const, .bool false⟩ (by decide)).2
    exact (hassign (.name ⟨"y", .unknown⟩) (.literal (.bool true) .unknown) .unknown (.bool true)
      env rfl rfl rfl).1

end Eval

end Rill
