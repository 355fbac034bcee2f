import Rill.Proofs.Frames
import Rill.Proofs.Plan

/-!
# Frames are balanced

Frames are opened and dropped by single steps, and an evaluation can end between the two in five
ways. Still, an evaluation that finishes has dropped each frame that it has opened
(`Eval.leaves_perform`), whatever flow it finishes with : the frames that were there before have the
names that they had, in their order and with their kinds, but for names that statements add to the
innermost one. One that stops leaves them below the frames that it has not dropped, and it has taken
back its calls either way.

`Eval.Leaves gains act` says so of a step, with one rule for each way of making steps from others.
A plan in the frame that was there leaves it so, and one in a frame of its own drops that frame
(`Eval.Plan.leaves`).
-/

namespace Rill

/-- An environment and one that a finished evaluation leaves. -/
structure Env.Grown (gains : Bool) (env env' : Env) : Prop where
  stack : env.stack.Grown gains env'.stack
  callDepth : env'.callDepth = env.callDepth
  maxCallDepth : env'.maxCallDepth = env.maxCallDepth

/-- An environment and one that a stopped evaluation leaves. -/
structure Env.Under (env env' : Env) : Prop where
  stack : env.stack.Under env'.stack
  callDepth : env'.callDepth = env.callDepth
  maxCallDepth : env'.maxCallDepth = env.maxCallDepth

namespace Env

variable {gains : Bool} {env env' env'' : Env}

theorem Grown.refl (env : Env) : env.Grown gains env := ⟨.refl _, rfl, rfl⟩

theorem Grown.trans (h : env.Grown gains env') (h' : env'.Grown gains env'') :
    env.Grown gains env'' :=
  ⟨h.stack.trans h'.stack, h'.callDepth.trans h.callDepth, h'.maxCallDepth.trans h.maxCallDepth⟩

theorem Grown.mono (h : env.Grown false env') : env.Grown gains env' :=
  ⟨h.stack.mono, h.callDepth, h.maxCallDepth⟩

theorem Grown.weaken (h : env.Grown gains env') : env.Grown true env' := by
  cases gains with
  | false => exact h.mono
  | true => exact h

/-- What has grown inside a frame of its own is as it was once the frame is dropped. -/
theorem Grown.closed (h : env.opened.Grown gains env') : env.Grown false env'.closed :=
  ⟨h.stack.pop, h.callDepth, h.maxCallDepth⟩

/-- A finished evaluation leaves no less than a stopped one. -/
theorem Grown.under (h : env.Grown gains env') : env.Under env' :=
  ⟨h.stack.under, h.callDepth, h.maxCallDepth⟩

theorem Under.refl (env : Env) : env.Under env := ⟨.refl _, rfl, rfl⟩

/-- An evaluation that stops after another one has finished leaves the frames below. -/
theorem Under.trans (h : env.Under env') (h' : env'.Under env'') : env.Under env'' :=
  ⟨h.stack.trans h'.stack, h'.callDepth.trans h.callDepth, h'.maxCallDepth.trans h.maxCallDepth⟩

theorem under_opened (env : Env) : env.Under env.opened := ⟨.push _, rfl, rfl⟩

end Env

namespace Eval

variable {α β : Type} {gains : Bool}

/-! ## Rules -/

/-- A step that leaves the frames as they were, but for names that the innermost one gains, and that
has taken back its calls also when it stops. -/
def Leaves (gains : Bool) (act : Eval α) : Prop :=
  ∀ env, match act env with
    | .ok _ env' => env.Grown gains env'
    | .error _ env' => env.Under env'

/-- A step that does so and then drops the innermost frame. -/
def Closes (act : Eval α) : Prop :=
  ∀ env, match act env with
    | .ok _ env' => ∃ mid, env.Grown true mid ∧ env' = mid.closed
    | .error _ env' => env.Under env'

/-- If the step finishes, the innermost frame may have gained names. -/
theorem Leaves.grown {act : Eval α} (h : Leaves gains act) {env env' : Env} {a : α}
    (hrun : act env = .ok a env') : env.Grown gains env' := by
  have henv := h env
  rwa [hrun] at henv

/-- If the step stops, the frames are still there, below others. -/
theorem Leaves.under {act : Eval α} (h : Leaves gains act) {env env' : Env} {stop : Stop}
    (hrun : act env = .error stop env') : env.Under env' := by
  have henv := h env
  rwa [hrun] at henv

/-- However a step ends, the depth of calls is as it was. -/
theorem Leaves.callDepth_left {act : Eval α} (h : Leaves gains act) (env : Env) :
    (left (act env)).callDepth = env.callDepth := by
  cases hact : act env with
  | ok a env' => exact (h.grown hact).callDepth
  | error stop env' => exact (h.under hact).callDepth

theorem Leaves.maxCallDepth_left {act : Eval α} (h : Leaves gains act) (env : Env) :
    (left (act env)).maxCallDepth = env.maxCallDepth := by
  cases hact : act env with
  | ok a env' => exact (h.grown hact).maxCallDepth
  | error stop env' => exact (h.under hact).maxCallDepth

theorem leaves_pure (a : α) : Leaves gains (pure a : Eval α) := fun env => Env.Grown.refl env

theorem leaves_fail (fault : RuntimeFault) (range : Range) :
    Leaves gains (fail fault range : Eval α) :=
  fun env => Env.Under.refl env

/-- Steps in sequence leave the frames as they were if each of them does. -/
theorem Leaves.bind {act : Eval α} {k : α → Eval β} (h : Leaves gains act)
    (hk : ∀ a, Leaves gains (k a)) :
    Leaves gains (act >>= k) := by
  intro env
  cases hact : act env with
  | ok a env₁ =>
    rw [bind_of_ok hact]
    have hgrown := h.grown hact
    have hnext := hk a env₁
    cases hrun : k a env₁ with
    | ok b env₂ =>
      rw [hrun] at hnext
      exact hgrown.trans hnext
    | error stop env₂ =>
      rw [hrun] at hnext
      exact hgrown.under.trans hnext
  | error stop env₁ =>
    rw [bind_of_error hact]
    exact h.under hact

theorem Leaves.mono {act : Eval α} (h : Leaves false act) : Leaves gains act := by
  intro env
  have henv := h env
  cases hact : act env with
  | ok a env' =>
    rw [hact] at henv
    exact henv.mono
  | error stop env' =>
    rw [hact] at henv
    exact henv

theorem Leaves.ite {c : Prop} [Decidable c] {act other : Eval α} (h : Leaves gains act)
    (hother : Leaves gains other) : Leaves gains (if c then act else other) := by
  split
  · exact h
  · exact hother

theorem closes_pop (a : α) : Closes (pop >>= fun _ => pure a) := fun env => ⟨env, .refl env, rfl⟩

theorem closes_fail (fault : RuntimeFault) (range : Range) : Closes (fail fault range : Eval α) :=
  fun env => Env.Under.refl env

/-- A step may come before the one that closes the frame. -/
theorem Leaves.closes {act : Eval α} {k : α → Eval β} (h : Leaves gains act)
    (hk : ∀ a, Closes (k a)) :
    Closes (act >>= k) := by
  intro env
  cases hact : act env with
  | ok a env₁ =>
    rw [bind_of_ok hact]
    have hgrown := h.grown hact
    have hnext := hk a env₁
    cases hrun : k a env₁ with
    | ok b env₂ =>
      rw [hrun] at hnext
      obtain ⟨mid, hmid, rfl⟩ := hnext
      exact ⟨mid, hgrown.weaken.trans hmid, rfl⟩
    | error stop env₂ =>
      rw [hrun] at hnext
      exact hgrown.under.trans hnext
  | error stop env₁ =>
    rw [bind_of_error hact]
    exact h.under hact

/-- Opening a frame and dropping it in the end leaves nothing of it. -/
theorem Closes.push {act : Eval α} (h : Closes act) : Leaves gains (push >>= fun _ => act) := by
  refine Leaves.mono fun env => ?_
  have hrun : (Eval.push >>= fun _ => act) env = act env.opened := rfl
  rw [hrun]
  have henv := h env.opened
  cases hact : act env.opened with
  | ok a env' =>
    rw [hact] at henv
    obtain ⟨mid, hmid, rfl⟩ := henv
    exact hmid.closed
  | error stop env' =>
    rw [hact] at henv
    exact (Env.under_opened env).trans henv

/-! ## Single steps -/

theorem leaves_located (range : Range) (r : Except RuntimeFault α) :
    Leaves gains (located range r) := by
  cases r with
  | ok a => exact leaves_pure a
  | error fault => exact fun env => Env.Under.refl env

theorem leaves_find? (name : String) : Leaves gains (find? name) := fun env => Env.Grown.refl env

/-- To set a name leaves the names as they are. -/
theorem leaves_set (name : String) (value : Value) : Leaves gains (set name value) :=
  fun env => ⟨.set env.stack name value, rfl, rfl⟩

/-- To add a name gives it to the innermost frame. -/
theorem leaves_add (name : String) (symbol : Symbol) (range : Range) :
    Leaves true (add name symbol range) := by
  intro env
  unfold add
  cases h : env.stack.add? name symbol with
  | some stack => exact ⟨.add h, rfl, rfl⟩
  | none => exact Env.Under.refl env

theorem leaves_lookup (ident : Ident) : Leaves gains (lookup ident) := by
  refine (leaves_find? ident.name).bind fun symbol => ?_
  cases symbol with
  | some symbol => exact leaves_pure _
  | none => exact Leaves.ite (leaves_pure _) (leaves_fail _ _)

theorem leaves_target (e : Expr) : Leaves gains (target e) := by
  unfold target
  cases e.ident? with
  | none => exact leaves_fail _ _
  | some ident =>
    refine (leaves_find? ident.name).bind fun symbol => ?_
    cases symbol with
    | none => exact leaves_fail _ _
    | some symbol =>
      cases hkind : symbol.kind with
      | var =>
        simp only [hkind]
        exact leaves_pure _
      | const | func =>
        simp only [hkind]
        exact leaves_fail _ _

theorem leaves_print (args : List Value) : Leaves gains (print args) := by
  intro env
  unfold print write
  generalize env.sink.writeAll _ = written
  obtain ⟨refused, sink⟩ := written
  cases refused with
  | none => exact ⟨.refl _, rfl, rfl⟩
  | some message => exact ⟨.refl _, rfl, rfl⟩

/-- Arguments are bound in the innermost frame, which is that of the call. -/
theorem leaves_bindArgs (params : List Variable) (args : List Value) :
    Leaves true (bindArgs params args) := by
  induction params generalizing args with
  | nil => exact leaves_pure ()
  | cons param params ih =>
    cases args with
    | nil => exact leaves_pure ()
    | cons arg args => exact (leaves_add _ _ _).bind fun _ => ih args

/-- The start of a call opens one frame, which has then gained the slot and the parameters. -/
theorem grown_enter {f : Func} {args : List Value} {env env' : Env}
    (h : enter f args env = .ok () env') : env.opened.Grown true env' := by
  have hbind : Leaves true
      (add resultName ⟨.var, .null⟩ f.range >>= fun _ => bindArgs f.params args) :=
    (leaves_add _ _ _).bind fun _ => leaves_bindArgs _ _
  exact hbind.grown h

theorem leaves_result : Leaves gains result := by
  refine (leaves_find? resultName).bind fun symbol => ?_
  cases symbol <;> exact leaves_pure _

/-- The depth is taken back whether the step finishes or stops. -/
theorem leaves_calling {act : Eval α} (range : Range) (h : Leaves gains act) :
    Leaves gains (calling range act) := by
  intro env
  by_cases hlimit : env.maxCallDepth ≤ env.callDepth
  · rw [calling_of_limit range hlimit]
    exact Env.Under.refl env
  · cases hact : act env.deeper with
    | ok a env' =>
      rw [calling_of_ok range hlimit hact]
      have hgrown := h.grown hact
      exact ⟨hgrown.stack, congrArg (· - 1) hgrown.callDepth, hgrown.maxCallDepth⟩
    | error stop env' =>
      rw [calling_of_error range hlimit hact]
      have hunder := h.under hact
      exact ⟨hunder.stack, congrArg (· - 1) hunder.callDepth, hunder.maxCallDepth⟩

/-! ## Evaluation -/

/-- A step that gains names may stand where names may be gained, and one that gains none
anywhere. -/
theorem Leaves.upTo {gained : Bool} {act : Eval α} (h : Leaves gained act)
    (hgains : gained = true → gains = true) : Leaves gains act := by
  cases gained with
  | false => exact h.mono
  | true =>
    rw [hgains rfl]
    exact h

theorem leaves_mainFunction : Leaves gains mainFunction := by
  refine (leaves_find? "main").bind fun symbol => ?_
  split
  · exact leaves_pure _
  · exact leaves_fail _ _

/-- The last step of a task adds a name only where the innermost frame may gain one. -/
theorem Step.leaves (s : Step gains α) : Leaves gains s.run := by
  cases s with
  | done a => exact leaves_pure a
  | fail e => exact fun env => Env.Under.refl env
  | lookup ident => exact leaves_lookup ident
  | update e range new answer =>
    refine (leaves_target e).bind fun p => (leaves_located range _).bind fun v => ?_
    exact (leaves_set p.1 v).bind fun _ => leaves_pure _
  | deliver v => exact (leaves_set resultName v).bind fun _ => leaves_pure _
  | bind name symbol range => exact leaves_add name symbol range
  | print args => exact (leaves_print args).bind fun _ => leaves_pure _

/-- To leave a call drops its frame, whatever flow it ends with. -/
theorem closes_leave (flow : Flow) : Closes (leave flow) := by
  cases flow with
  | «break» range => exact closes_fail _ _
  | «continue» range => exact closes_fail _ _
  | _ => exact (@leaves_result false).closes fun v => closes_pop v

/-- What a plan has to do with the innermost frame : leave it, or drop it if it is its own. -/
def Innermost.Leaves : Innermost → Eval α → Prop
  | .given gains, act => Eval.Leaves gains act
  | .own, act => Closes act

/-- A plan leaves the frame that was there and drops the one that it has opened, if the tasks leave
the frames that they start in. -/
theorem Plan.leaves {n : Nat} (ih : ∀ t : Task, Leaves t.mayDeclare (t.perform n)) {i : Innermost}
    (plan : Plan i α) : i.Leaves (plan.run n) := by
  induction plan with
  | step s => exact s.leaves
  | @task i _ t h k ihk =>
    cases i with
    | given gains => exact ((ih t).upTo h).bind ihk
    | own => exact (ih t).closes ihk
  | framed t k ihk => exact Closes.push ((ih t).closes ihk)
  | close a => exact closes_pop a
  | call f args range => exact leaves_calling range (ih (.run f args)).mono
  | invoke f args =>
    have hbody : Closes (stmts n f.body.stmts >>= leave) :=
      (ih (.stmts f.body.stmts)).closes closes_leave
    rw [run]
    unfold enter
    simp only [bind_assoc]
    exact Closes.push
      ((leaves_add _ _ _).closes fun _ => (leaves_bindArgs _ _).closes fun _ => hbody)
  | main k ihk => exact leaves_mainFunction.bind ihk

/-- Every task leaves the frames as they were, but for the names that it may add to the
innermost one. -/
theorem leaves_perform (n : Nat) (t : Task) : Leaves t.mayDeclare (t.perform n) := by
  induction n generalizing t with
  | zero =>
    intro env
    rw [Task.perform_zero]
    exact Env.Under.refl env
  | succ n ih =>
    rw [Task.perform_succ]
    exact Plan.leaves ih t.plan

/-! ## Programs and scripts -/

/-- Declarations give names to the global frame only. -/
theorem leaves_declareAll (n : Nat) (ds : List Decl) : Leaves true (declareAll n ds) := by
  induction ds with
  | nil => exact leaves_pure ()
  | cons d rest ih => exact (leaves_perform n (.declare true d)).bind fun _ => ih

theorem leaves_outerStmts (n : Nat) (ss : List Stmt) : Leaves true (outerStmts n ss) := by
  rw [← run_outerPlan]
  exact Plan.leaves (leaves_perform n) (outerPlan ss)

/-- A program leaves the frames as they were, but for global names. -/
theorem leaves_program (n : Nat) (p : Program) : Leaves true (p.run n) := by
  rw [← run_programPlan]
  exact Plan.leaves (leaves_perform n) (programPlan p)

/-- Frames are balanced and names do not leak. An expression that has been evaluated leaves as
many frames as there were, with the same names in the same order and of the same kinds; an
executed statement does so too, whatever flow it finishes with, but for names that the
innermost frame may have gained at its end, and it gains none from an expression, a block, a
`for` or a `switch`. So programs and scripts give a value only at the depth at which they
started. No stack is without frames. -/
theorem frames_balanced (n : Nat) (env : Env) :
    (∀ e v env', expr n e env = .ok v env' →
      env'.stack.depth = env.stack.depth ∧ env'.stack.names = env.stack.names) ∧
    (∀ s flow env', stmt n s env = .ok flow env' →
      env'.stack.depth = env.stack.depth ∧
        ∃ top rest added, env.stack.names = top :: rest ∧
          env'.stack.names = (top ++ added) :: rest ∧
          (s.kind = .expr ∨ s.kind = .block ∨ s.kind = .forLoop ∨ s.kind = .switch → added = [])) ∧
    (∀ (p : Program) v env', p.run n env = .ok v env' → env'.stack.depth = env.stack.depth) ∧
    (∀ (p : Script) v env', p.run n env = .ok v env' → env'.stack.depth = env.stack.depth) ∧
    ∀ stack : Stack, stack.frames ≠ [] := by
  refine ⟨?_, ?_, ?_, ?_, Stack.frames_ne_nil⟩
  · intro e v env' h
    have hgrown := (leaves_perform n (.expr e)).grown h
    exact ⟨hgrown.stack.depth_eq, hgrown.stack.names_eq⟩
  · intro s flow env' h
    have hgrown := (leaves_perform n (.stmt s)).grown h
    obtain ⟨top, rest, added, hnames, hnames', hadded⟩ := hgrown.stack.names
    refine ⟨hgrown.stack.depth_eq, top, rest, added, hnames, hnames', fun hkind => hadded ?_⟩
    rcases hkind with hkind | hkind | hkind | hkind <;>
      simp [Task.mayDeclare, hkind, StmtKind.mayDeclare]
  · intro p v env' h
    exact ((leaves_program n p).grown h).stack.depth_eq
  · intro p v env' h
    exact ((leaves_outerStmts n p.stmts).grown h).stack.depth_eq

/-- A function that returns out of a block in which a name is declared, called by an expression, by
a declaration that adds a name, by a program and by a script. -/
theorem frames_balanced_returning :
    let inner : Stmt := .block
      ⟨[.decl (.var ⟨⟨1⟩, ⟨"x", .unknown⟩, none, none, false, ⟨2⟩, .unknown⟩) .unknown,
        .return (some (.literal (.int 5) .unknown)) .unknown], ⟨2⟩, .unknown⟩
    let main : Func :=
      ⟨⟨0⟩, ⟨"main", .unknown⟩, none, [], ⟨[inner], ⟨1⟩, .unknown⟩, ⟨0⟩, ⟨1⟩, .unknown⟩
    let call : Expr := .call (.name ⟨"main", .unknown⟩) [] .unknown
    let declaration : Stmt :=
      .decl (.var ⟨⟨2⟩, ⟨"y", .unknown⟩, none, some call, false, ⟨0⟩, .unknown⟩) .unknown
    let program : Program := ⟨[.func main], .unknown, .initial, .empty⟩
    let script : Script := ⟨[.expr call .unknown, declaration], .unknown, .initial, .empty⟩
    let env : Env := { stack := { bottom := ⟨[("main", ⟨.func, .function (.user main)⟩)]⟩ } }
    let last : Env :=
      { stack :=
        { bottom := ⟨[("main", ⟨.func, .function (.user main)⟩), ("y", ⟨.var, .int 5⟩)]⟩ } }
    (expr 20 call env = .ok (.int 5) env ∧ env.stack.names = [[("main", .func)]]) ∧
    (stmt 20 declaration env = .ok .normal last ∧
      ∃ added, last.stack.names = [[("main", .func)] ++ added]) ∧
    (program.run 20 {} = .ok (.int 5) env ∧ env.stack.depth = 1) ∧
    (script.run 20 env = .ok .null last ∧ last.stack.depth = 1) := by
  intro inner main call declaration program script env last
  have hexpr : expr 20 call env = .ok (.int 5) env := rfl
  have hstmt : stmt 20 declaration env = .ok .normal last := rfl
  have hdeclare : declareAll 20 program.decls {} = .ok () env := rfl
  have hmain : mainFunction env = .ok main env := rfl
  have hcall : Eval.call 20 main [] .unknown env = .ok (.int 5) env := rfl
  have hprogram : program.run 20 {} = .ok (.int 5) env :=
    (bind_of_ok hdeclare).trans ((bind_of_ok hmain).trans hcall)
  have hfirst : outerStmt 20 (.expr call .unknown) env = .ok .normal env := rfl
  have hsecond : outerStmt 20 declaration env = .ok .normal last := rfl
  have hscript : script.run 20 env = .ok .null last :=
    (bind_of_ok hfirst).trans (bind_of_ok hsecond)
  have hbalanced := frames_balanced 20 env
  obtain ⟨-, top, rest, added, hnames, hnames', -⟩ := hbalanced.2.1 _ _ _ hstmt
  obtain ⟨rfl, rfl⟩ := List.cons.inj hnames
  exact ⟨⟨hexpr, (hbalanced.1 _ _ _ hexpr).2⟩, ⟨hstmt, added, hnames'⟩,
    ⟨hprogram, (frames_balanced 20 {}).2.2.1 _ _ _ hprogram⟩,
    ⟨hscript, hbalanced.2.2.2.1 _ _ _ hscript⟩⟩

end Eval

end Rill
