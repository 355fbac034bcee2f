import Rill.Proofs.History

/-!
# Recovery after a stop

A stopped evaluation leaves the frames that it has opened, so that the place of an error can be
looked at, but it takes back its calls. On the way the call depth stays within the limit, or where
it was if it was above already : this holds of all environments in the history of an evaluation,
which leads from where the evaluation starts to where it ends. So after a stop the frames of before
are still in their places, and a reset gives back the global frame alone (`Eval.recoverable`).
-/

namespace Rill.Eval

theorem callDepth_left (n : Nat) (t : Task) (env : Env) :
    (left (t.perform n env)).callDepth = env.callDepth := (leaves_perform n t).callDepth_left env

/-- An error leaves the environment recoverable. A task goes through its history, by single
changes from where it starts to where it ends and by way of the histories of all tasks that are
started; and in it the call depth never passes the limit or, above that, where it was before.
Whether a task finishes or stops, the call depth is afterwards what it was before; the body of
each call ends one deeper than the call was made, so that there is a call to take back. If the
task stops, the frames of before are in their places below those that were opened, each with its
names, and only the innermost of them may have gained names; and after a reset there is the global
frame alone, and no call. -/
theorem recoverable (n : Nat) (t : Task) (env : Env) :
    env.Path (t.history n env) (left (t.perform n env)) ∧
    (∀ e ∈ t.history n env, e.callDepth ≤ max env.maxCallDepth env.callDepth) ∧
    (∀ m ∈ t.fullCourse n env, m.task.history m.steps m.env <:+: t.history n env ∧
      ∀ f args range, m.task = .call f args range →
        ∀ k, (left (run k f args m.env.deeper)).callDepth = m.env.callDepth + 1) ∧
    (left (t.perform n env)).callDepth = env.callDepth ∧
    ∀ stop env', t.perform n env = .error stop env' →
      (∃ top rest pushed added,
        env.stack.names = top :: rest ∧ env'.stack.names = pushed ++ (top ++ added) :: rest) ∧
      env'.reset.stack.frames = [env'.stack.bottom] ∧
      env.stack.bottom.names <+: env'.stack.bottom.names ∧ env'.reset.callDepth = 0 := by
  have hpath := t.path_history n env
  refine ⟨hpath, fun e he => (hpath.depthKept e he).2, fun m hm => ⟨Task.isInfix_history hm, ?_⟩,
    callDepth_left n t env, ?_⟩
  · intro f args range _ k
    exact callDepth_left k (.run f args) m.env.deeper
  · intro stop env' h
    have hunder := (leaves_perform n t).under h
    exact ⟨hunder.stack.names, rfl, hunder.stack.bottom, rfl⟩

/-- A name that is not bound, looked up in a block of a function whose call is the last that the
limit allows. -/
theorem recoverable_unresolved :
    let block : Stmt := .block
      ⟨[.decl (.var ⟨⟨1⟩, ⟨"x", .unknown⟩, none, none, false, ⟨2⟩, .unknown⟩) .unknown,
        .expr (.name ⟨"y", .unknown⟩) .unknown], ⟨2⟩, .unknown⟩
    let f : Func :=
      ⟨⟨0⟩, ⟨"f", .unknown⟩, none, [], ⟨[block], ⟨1⟩, .unknown⟩, ⟨0⟩, ⟨1⟩, .unknown⟩
    let call : Task := .expr (.call (.name ⟨"f", .unknown⟩) [] .unknown)
    let bottom : Frame := ⟨[("f", ⟨.func, .function (.user f)⟩)]⟩
    let env : Env := { stack := ⟨[], bottom⟩, callDepth := 2, maxCallDepth := 3 }
    let last : Env := { env with
      stack := ⟨[⟨[("x", ⟨.var, .null⟩)]⟩, ⟨[("return", ⟨.var, .null⟩)]⟩], bottom⟩ }
    ((∃ e ∈ call.history 20 env, e.callDepth = 3) ∧
      ∀ e ∈ call.history 20 env, e.callDepth ≤ 3) ∧
    (⟨19, .call f [] .unknown, env⟩ ∈ call.fullCourse 20 env ∧
      (left (run 18 f [] env.deeper)).callDepth = 3) ∧
    call.perform 20 env = .error (.failed ⟨.unresolvedSymbol "y", .unknown⟩) last ∧
    env.Path (call.history 20 env) last ∧ (left (call.perform 20 env)).callDepth = 2 ∧
    (∃ pushed added, last.stack.names = pushed ++ [[("f", .func)] ++ added]) ∧
    last.reset.stack.frames = [bottom] ∧ last.reset.callDepth = 0 := by
  intro block f call bottom env last
  have hcall : ⟨19, .call f [] .unknown, env⟩ ∈ call.fullCourse 20 env :=
    List.mem_of_getElem? (i := 3) rfl
  have hstop : call.perform 20 env = .error (.failed ⟨.unresolvedSymbol "y", .unknown⟩) last := rfl
  have hdeepest : ∃ e ∈ call.history 20 env, e.callDepth = 3 := by decide +kernel
  obtain ⟨hpath, hlimit, hway, hdepth, hlast⟩ := recoverable 20 call env
  obtain ⟨⟨top, rest, pushed, added, hnames, hnames'⟩, hframes, -, hreset⟩ := hlast _ _ hstop
  obtain ⟨rfl, rfl⟩ := List.cons.inj hnames
  rw [hstop] at hpath
  exact ⟨⟨hdeepest, hlimit⟩, ⟨hcall, (hway _ hcall).2 f [] .unknown rfl 18⟩, hstop, hpath, hdepth,
    ⟨pushed, added, hnames'⟩, hframes, hreset⟩

end Rill.Eval
