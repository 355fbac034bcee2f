import Rill.Proofs.Conduct
import Rill.Proofs.Recovery

/-!
# Jumps stay where they belong

A `break` that stands in a loop or a switch, and a `continue` that stands in a loop, never leaves
the function that it is written in. Loops take both jumps of their body and switches take a `break`,
whatever they are executed in; so a body without free jumps finishes normally or with a `return`
(`Eval.flow_of_body`). If none of the functions that a run can come to has a free jump, then the run
never stops because of one (`Eval.jumps_stay`). Which functions these are is not read off the
calls : they are the functions that the environment holds and those that are bound at the outermost
level. Functions that are declared elsewhere are never bound.
-/

namespace Rill

/-- No jump is free in the body of a function. -/
def Func.JumpsPlaced (f : Func) : Prop := ∀ j, Stmt.anyFree j f.body.stmts = false

/-- No jump is free in the functions of a program. -/
def Program.JumpsPlaced (p : Program) : Prop := ∀ f, .func f ∈ p.decls → f.JumpsPlaced

/-- No jump is free in a script and its functions. -/
structure Script.JumpsPlaced (s : Script) : Prop where
  stmts : ∀ j, Stmt.anyFree j s.stmts = false
  funcs : ∀ f range, .decl (.func f) range ∈ s.stmts → f.JumpsPlaced

/-- Functions without free jumps, and no jump that strays. -/
def Contract.placed : Contract where
  node _ := True
  func := Func.JumpsPlaced
  jump _ := False
  nodes _ _ _ _ := trivial
  jumps f hf j hj := by
    rw [hf j] at hj
    cases hj

theorem Flow.eq_of_jump? {flow : Flow} (h : flow.jump? = none) :
    flow = .normal ∨ ∃ v, flow = .return v := by
  cases flow with
  | normal => exact .inl rfl
  | «return» v => exact .inr ⟨v, rfl⟩
  | _ => cases h

namespace Eval

variable {n : Nat} {env env' : Env} {flow : Flow}

/-- A statement finishes with a jump only if it has the jump free and is no loop. -/
theorem jump_of_stmt {s : Stmt} {j : Jump} (h : stmt n s env = .ok flow env')
    (hj : j ∈ flow.jump?) :
    s.hasFree j = true ∧ s.kind.isLoop = false := by
  have hmeets := meets_perform n (Task.stmt s).allowed_free
  exact (hmeets.of_ok (env.funcs_of_forall fun _ => trivial) h).1.2 j hj

/-- A body without free jumps finishes normally or with a `return`. -/
theorem flow_of_body {f : Func} (hf : f.JumpsPlaced)
    (h : stmts n f.body.stmts env = .ok flow env') :
    flow = .normal ∨ ∃ v, flow = .return v := by
  have hmeets := meets_perform n (Task.stmts f.body.stmts).allowed_free
  have hanswers := (hmeets.of_ok (env.funcs_of_forall fun _ => trivial) h).1
  refine Flow.eq_of_jump? (Option.eq_none_iff_forall_not_mem.2 fun j hj => ?_)
  have hfree : Stmt.anyFree j f.body.stmts = true := hanswers.2 j hj
  rw [hf j] at hfree
  cases hfree

theorem flow_of_loop {s : Stmt} (hs : s.kind.isLoop = true) (h : stmt n s env = .ok flow env') :
    flow = .normal ∨ ∃ v, flow = .return v := by
  refine Flow.eq_of_jump? (Option.eq_none_iff_forall_not_mem.2 fun j hj => ?_)
  rw [(jump_of_stmt h hj).2] at hs
  cases hs

/-- A `break` is never free in a switch. -/
theorem flow_of_switch {s : Stmt} (hs : s.kind = .switch) (h : stmt n s env = .ok flow env')
    (range : Range) :
    flow ≠ .break range := by
  rintro rfl
  have hfree := (jump_of_stmt h (j := .break) rfl).1
  cases s with
  | «switch» subject body range =>
    rw [Stmt.hasFree] at hfree
    cases hfree
  | _ => cases hs

/-- A run that does not fail because a jump has left every loop, and that leaves an environment
whose functions have no free jumps. -/
structure KeepsJumps (act : Eval Value) (env : Env) : Prop where
  error_ne : ∀ j range env', act env ≠ .error (.failed ⟨.jumpOutsideLoop j, range⟩) env'
  funcs : (left (act env)).Funcs Func.JumpsPlaced

theorem Meets.keepsJumps {post : Value → Prop} {act : Eval Value} (h : Meets .placed post act)
    (henv : env.Funcs Func.JumpsPlaced) : KeepsJumps act env :=
  ⟨fun j _ _ hrun => (h.of_error henv hrun).1.jump j rfl, h.funcs_left henv⟩

/-- Well-placed jumps never escape. Programs and scripts none of whose functions and outermost
statements has a free jump, run in an environment whose functions have none either, never fail
because a jump has left every loop, and the environment that they leave is one to go on in. Every
body of such a function finishes normally or with a `return`. And loops never finish with a jump,
nor switches with a `break`, wherever they are executed. -/
theorem jumps_stay (n : Nat) (env : Env) (henv : env.Funcs Func.JumpsPlaced) :
    (∀ p : Program, p.JumpsPlaced → KeepsJumps (p.run n) env) ∧
    (∀ s : Script, s.JumpsPlaced → KeepsJumps (s.run n) env) ∧
    (∀ f : Func, f.JumpsPlaced → ∀ m env₁ flow env', stmts m f.body.stmts env₁ = .ok flow env' →
      flow = .normal ∨ ∃ v, flow = .return v) ∧
    ∀ s m env₁ flow env', stmt m s env₁ = .ok flow env' →
      (s.kind.isLoop = true → flow = .normal ∨ ∃ v, flow = .return v) ∧
        (s.kind = .switch → ∀ range, flow ≠ .break range) := by
  refine ⟨fun p hp => ?_, fun s hs => ?_, ?_, ?_⟩
  · exact (meets_program n (c := .placed) (fun _ _ _ _ => trivial) hp trivial).keepsJumps henv
  · have hstmts : ∀ j, Stmt.anyFree j s.stmts = true → Contract.placed.jump j := by
      intro j hj
      rw [hs.stmts j] at hj
      cases hj
    exact (meets_outerStmts n (c := .placed) (fun _ _ _ _ => trivial) hs.funcs hstmts).keepsJumps
      henv
  · exact fun f hf m env₁ flow env' h => flow_of_body hf h
  · exact fun s m env₁ flow env' h => ⟨fun hs => flow_of_loop hs h, fun hs => flow_of_switch hs h⟩

/-- A loop whose body is a switch with a `continue` for the loop, and then a `break` : in a
function of a program, in a function that the environment holds already, and at the
outermost level of a script. -/
theorem jumps_stay_nested :
    let yes : Expr := .literal (.bool true) .unknown
    let choice : Stmt :=
      .switch yes
        ⟨[.caseLabel yes .unknown, .continue .unknown, .break .unknown], ⟨3⟩, .unknown⟩ .unknown
    let loop : Stmt :=
      .doWhile (.block ⟨[choice, .break .unknown], ⟨2⟩, .unknown⟩)
        (.literal (.bool false) .unknown) .unknown
    let func (name : String) (body : List Stmt) : Func :=
      ⟨⟨0⟩, ⟨name, .unknown⟩, none, [], ⟨body, ⟨1⟩, .unknown⟩, ⟨0⟩, ⟨1⟩, .unknown⟩
    let old := func "old" [loop]
    let main := func "main"
      [loop, .return (some (.call (.name ⟨"old", .unknown⟩) [] .unknown)) .unknown]
    let program : Program := ⟨[.func main], .unknown, .initial, .empty⟩
    let script : Script := ⟨[.decl (.func main) .unknown, loop], .unknown, .initial, .empty⟩
    let env : Env := { stack := { bottom := ⟨[("old", ⟨.func, .function (.user old)⟩)]⟩ } }
    env.Funcs Func.JumpsPlaced ∧
    (program.JumpsPlaced ∧ KeepsJumps (program.run 30) env) ∧
    (script.JumpsPlaced ∧ KeepsJumps (script.run 30) env) ∧
    (main.JumpsPlaced ∧ stmts 30 main.body.stmts env = .ok (.return .null) env ∧
      (Flow.return .null = .normal ∨ ∃ v, Flow.return .null = .return v)) ∧
    (stmt 30 loop env = .ok .normal env ∧ loop.kind.isLoop = true ∧
      (Flow.normal = .normal ∨ ∃ v, Flow.normal = .return v)) ∧
    (stmt 30 choice env = .ok (.continue .unknown) env ∧ choice.kind = .switch ∧
      ∀ range, Flow.continue .unknown ≠ .break range) := by
  intro yes choice loop func old main program script env
  have hold : old.JumpsPlaced := fun j => by cases j <;> rfl
  have hmain : main.JumpsPlaced := fun j => by cases j <;> rfl
  have henv : env.Funcs Func.JumpsPlaced := by
    intro x symbol hsymbol
    obtain ⟨f, hf, hget⟩ := List.mem_filterMap.1 hsymbol
    obtain rfl := List.mem_singleton.1 hf
    by_cases hx : x = "old"
    · obtain rfl := hx
      cases hget
      exact hold
    · rw [Frame.get?, Frame.lookup_cons_of_ne hx] at hget
      cases hget
  have hprogram : program.JumpsPlaced := by
    intro f hf
    cases List.mem_singleton.1 hf
    exact hmain
  have hscript : script.JumpsPlaced := by
    refine ⟨fun j => by cases j <;> rfl, fun f range hf => ?_⟩
    rcases List.mem_cons.1 hf with heq | hf
    · cases heq
      exact hmain
    · have hkind : StmtKind.decl = .doWhile := congrArg Stmt.kind (List.mem_singleton.1 hf)
      cases hkind
  have hbody : stmts 30 main.body.stmts env = .ok (.return .null) env := rfl
  have hloop : stmt 30 loop env = .ok .normal env := rfl
  have hchoice : stmt 30 choice env = .ok (.continue .unknown) env := rfl
  obtain ⟨hprograms, hscripts, hbodies, hstmts⟩ := jumps_stay 30 env henv
  exact ⟨henv, ⟨hprogram, hprograms program hprogram⟩, ⟨hscript, hscripts script hscript⟩,
    ⟨hmain, hbody, hbodies main hmain _ _ _ _ hbody⟩, ⟨hloop, rfl, (hstmts _ _ _ _ _ hloop).1 rfl⟩,
    ⟨hchoice, rfl, (hstmts _ _ _ _ _ hchoice).2 rfl⟩⟩

/-- A script that binds a function with a free `break` and calls nothing. Then a script and a
program without free jumps, which call that function, fail because of its jump. -/
theorem jump_strays_from_environment :
    let func (name : String) (body : List Stmt) : Func :=
      ⟨⟨0⟩, ⟨name, .unknown⟩, none, [], ⟨body, ⟨1⟩, .unknown⟩, ⟨0⟩, ⟨1⟩, .unknown⟩
    let old := func "old" [.break .unknown]
    let call : Stmt := .expr (.call (.name ⟨"old", .unknown⟩) [] .unknown) .unknown
    let first : Script := ⟨[.decl (.func old) .unknown], .unknown, .initial, .empty⟩
    let script : Script := ⟨[call], .unknown, .initial, .empty⟩
    let program : Program := ⟨[.func (func "main" [call])], .unknown, .initial, .empty⟩
    ∃ env, first.run 20 {} = .ok .null env ∧ ¬old.JumpsPlaced ∧
      script.JumpsPlaced ∧ program.JumpsPlaced ∧
      (∃ env', script.run 20 env = .error (.failed ⟨.jumpOutsideLoop .break, .unknown⟩) env') ∧
      ∃ env', program.run 20 env = .error (.failed ⟨.jumpOutsideLoop .break, .unknown⟩) env' := by
  intro func old call first script program
  refine ⟨_, rfl, fun hold => ?_, ⟨fun j => by cases j <;> rfl, ?_⟩, ?_, ⟨_, rfl⟩, ⟨_, rfl⟩⟩
  · cases hold .break
  · intro f range hf
    have hkind : StmtKind.decl = .expr := congrArg Stmt.kind (List.mem_singleton.1 hf)
    cases hkind
  · intro f hf j
    cases List.mem_singleton.1 hf
    cases j <;> rfl

end Eval

end Rill
