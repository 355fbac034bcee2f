import Rill.Proofs.Jumps
import Rill.Proofs.Replacement

/-!
# A `for` loop as a `while` loop

A `for` loop does what a block does that holds its first part and a `while` loop, with the step at
the end of each pass (`Stmt.whileForm`). The two do not have the same frames : a pass of the
`while` loop runs in a frame of its own, below the frame of the body. It stays empty, since the
body is a block and the step declares nothing, so it is not noticed. A `break` or a `return` of the
body leaves both forms before the step. Only a `continue` tells them apart, as it would skip the
step of the `while` loop.
-/

namespace Rill

/-- The labels of the nodes that a `for` loop does not have itself. -/
structure WhileLabels where
  outer : ScopeId
  inner : ScopeId
  block : Range
  loop : Range
  condition : Range
  pass : Range
  step : Range

/-- The block that a `for` loop stands for : its first part, then a `while` loop that takes the step
after the body in each pass. A missing condition holds. -/
def Stmt.whileForm (labels : WhileLabels) (init : Option Stmt) (c step : Option Expr)
    (body : Stmt) : Stmt :=
  .block ⟨init.toList ++
    [.whileDo (c.getD (.literal (.bool true) labels.condition))
      (.block ⟨body :: (step.map (.expr · labels.step)).toList, labels.inner, labels.pass⟩)
      labels.loop],
    labels.outer, labels.block⟩

/-- A first part that a `for` loop may have besides others : a variable or an expression. -/
def Stmt.IsInit : Stmt → Prop
  | .decl (.var _) _ => True
  | .expr .. => True
  | _ => False

namespace Eval

open Eval.Graded

variable {α : Type} {n : Nat}

/-! ## Passes of a loop -/

/-- What comes after the body in a pass : the end of the loop, or the step and what is next. -/
def ontoPass (step : Option Expr) (next : Graded Flow) (flow : Flow) : Graded Flow :=
  match flow.afterPass with
  | some flow => pure flow
  | none => do
    let _ ← of (.expr? step)
    next

theorem later_loop (c step : Option Expr) (body : Stmt) : (of (.loop c step body)).later = do
    if ← of (.test c) then
      let flow ← of (.stmt body)
      ontoPass step (of (.loop c step body)) flow
    else return .normal := by
  refine Graded.ext (funext fun n => ?_)
  change loop (n + 1) c step body = test n c >>= fun holds =>
    Graded.run (if holds then of (.stmt body) >>= ontoPass step (of (.loop c step body))
      else pure .normal) n
  simp only [loop, run_ite]
  congr 1
  funext holds
  congr 1
  change _ = stmt n body >>= fun flow => (ontoPass step (of (.loop c step body)) flow).run n
  congr 1
  funext flow
  unfold ontoPass
  cases flow.afterPass <;> rfl

/-- A missing condition is `true`. -/
theorem agree_test (c : Option Expr) (range : Range) :
    Agree Eq Eq Eq n (of (.test c)) (of (.test (some (c.getD (.literal (.bool true) range))))) := by
  cases c with
  | some c => exact .refl (fun _ => rfl) _
  | none =>
    have hliteral : (of (.expr (.literal (.bool true) range))).Unfolds (pure (.bool true)) :=
      .later _
    have htest : (of (.test (some (.literal (.bool true) range)))).Unfolds
        (of (.expr (.literal (.bool true) range)) >>=
          fun v => steady (condition (.literal (.bool true) range) v)) :=
      .later _
    refine .unfold (.later _) (.unfold_right htest (.unfold_right (hliteral.before _) ?_))
    exact .pure true fun _ _ h => h

section

variable (step : Option Expr) (labels : WhileLabels) {next next' : Graded Flow}

/-- The step at the end of a pass, and the frame of the pass dropped. -/
theorem agree_step (h : Agree Eq Eq Eq n next next') :
    Agree Eq (Env.Padded {} 0) Eq n (do let _ ← of (.expr? step); next) (do
      let flow ← of (.stmts (step.map (.expr · labels.step)).toList)
      steady pop
      ontoPass none next' flow) := by
  have hnext : Agree Eq Eq Eq n next (ontoPass none next' .normal) := by
    refine .unfold_right (unfolds_expr?_none.before _) ?_
    rw [pure_bind]
    exact h
  cases step with
  | none =>
    refine .unfold (unfolds_expr?_none.before _) (.unfold_right (unfolds_stmts_nil.before _) ?_)
    rw [pure_bind, pure_bind]
    exact hnext.skip_pop
  | some e =>
    refine .unfold ((unfolds_expr?_some e).before _) ?_
    refine .unfold_right ((unfolds_stmts_cons _ []).before _) ?_
    rw [bind_assoc]
    refine .unfold_right ((unfolds_exprStmt e labels.step).before _) ?_
    rw [bind_assoc]
    have he : (Task.expr e).Allowed (.apart {}) := .expr (Node.all_apart (Frame.apart_empty _))
    refine (Agree.padded (fun _ => rfl) he (absurd · Bool.false_ne_true)).bind fun _ => ?_
    rw [pure_bind]
    refine .unfold_right (unfolds_stmts_nil.before _) ?_
    rw [pure_bind]
    exact hnext.skip_pop

/-- One pass : the body in an empty frame more, and then the step. -/
theorem agree_pass {b : Block} (hb : b.hasFree .continue = false)
    (h : Agree Eq Eq Eq n next next') :
    Agree Eq Eq Eq n (of (.stmt (.block b)) >>= ontoPass step next)
      (of
        (.stmt
          (.block
            ⟨.block b :: (step.map (.expr · labels.step)).toList, labels.inner, labels.pass⟩)) >>=
        ontoPass none next') := by
  have hbody : (Task.stmt (.block b)).Allowed (.apart {}) :=
    .stmt (Node.all_apart (Frame.apart_empty _))
  refine .unfold_right ((unfolds_block _).before _) ?_
  simp only [inFrame, bind_assoc, pure_bind]
  refine .skip_push (.unfold_right ((unfolds_stmts_cons _ _).before _) ?_)
  rw [bind_assoc]
  refine (Agree.padded (fun _ => rfl) hbody (absurd · Bool.false_ne_true)).bind_of
    (fun flow => ∀ range, flow ≠ .continue range) ?_ fun flow hflow => ?_
  · rintro m env _ last hrun range rfl
    have hfree := (jump_of_stmt hrun (j := .continue) rfl).1
    rw [Stmt.hasFree, hb] at hfree
    cases hfree
  · cases flow with
    | normal => exact agree_step step labels h
    | «continue» range => exact absurd rfl (hflow range)
    | «break» range | «return» v =>
      simp only [ontoStmts, pure_bind]
      exact .skip_pop (.pure _ fun _ _ h => h)

variable (c : Option Expr)

/-- The loops, pass by pass. -/
theorem agree_loop {b : Block} (hb : b.hasFree .continue = false) (n : Nat) :
    Agree Eq Eq Eq n (of (.loop c step (.block b)))
      (of (.loop (some (c.getD (.literal (.bool true) labels.condition))) none
        (.block
          ⟨.block b :: (step.map (.expr · labels.step)).toList, labels.inner, labels.pass⟩))) := by
  induction n with
  | zero => exact .zero rfl rfl
  | succ n ih =>
    refine .succ ?_
    rw [later_loop, later_loop]
    refine (agree_test c labels.condition).bind fun holds => ?_
    cases holds with
    | false => exact .pure _ fun _ _ h => h
    | true => exact agree_pass step labels hb ih

end

/-! ## The whole statement -/

theorem eq_of_bind_pure {act : Eval α} {β : Type} {b b' : β} {env env' : Env}
    (h : (act >>= fun _ => pure b) env = .ok b' env') : b' = b := by
  cases hrun : act env with
  | ok a last =>
    rw [bind_of_ok hrun] at h
    cases h
    rfl
  | error why last =>
    rw [bind_of_error hrun] at h
    cases h

/-- A variable or an expression finishes normally, if at all. -/
theorem flow_of_isInit {s : Stmt} (hs : s.IsInit) {env env' : Env} {flow : Flow}
    (h : stmt n s env = .ok flow env') :
    flow = .normal := by
  cases n with
  | zero => cases h
  | succ n =>
    cases s with
    | expr e range => exact eq_of_bind_pure h
    | decl d range => exact eq_of_bind_pure h
    | _ => exact hs.elim

theorem unfolds_forLoop (init : Option Stmt) (c step : Option Expr) (body : Stmt) (scope : ScopeId)
    (range : Range) :
    (of (.stmt (.forLoop init c step body scope range))).Unfolds
      (inFrame (do let _ ← of (.stmt? init); of (.loop c step body))) := by
  simp only [inFrame, bind_assoc]
  exact .later _

/-- The `while` loop is the last statement of its block. -/
theorem agree_tail (c step : Option Expr) (labels : WhileLabels) {b : Block}
    (hb : b.hasFree .continue = false) :
    Agree Eq Eq Eq n (of (.loop c step (.block b)))
      (of (.stmts [.whileDo (c.getD (.literal (.bool true) labels.condition))
        (.block ⟨.block b :: (step.map (.expr · labels.step)).toList, labels.inner, labels.pass⟩)
        labels.loop])) := by
  refine .unfold_right (unfolds_stmts_cons _ []) ?_
  refine .unfold_right ((Unfolds.later _).before _) ?_
  rw [← bind_pure (of (.loop c step (.block b)))]
  refine (agree_loop step labels c hb n).bind fun flow => ?_
  cases flow with
  | normal => exact .unfold_right unfolds_stmts_nil (.pure _ fun _ _ h => h)
  | _ => exact .pure _ fun _ _ h => h

section

variable (labels : WhileLabels) (init : Option Stmt) (c step : Option Expr) (b : Block)
  (scope : ScopeId)
  (range : Range) (hinit : ∀ s ∈ init, s.IsInit) (hb : b.hasFree .continue = false)

include hinit hb

theorem agree_whileForm :
    Agree Eq Eq Eq n (of (.stmt (.forLoop init c step (.block b) scope range)))
    (of (.stmt (.whileForm labels init c step (.block b)))) := by
  refine .unfold (unfolds_forLoop ..) (.unfold_right (unfolds_block _) ?_)
  -- Both open a frame before the first part and drop it in the end.
  refine (Agree.refl (fun _ => rfl) _).bind fun _ => ?_
  refine Agree.bind ?_ fun flow => .refl (fun _ => rfl) _
  cases init with
  | none =>
    refine .unfold (unfolds_stmt?_none.before _) ?_
    rw [pure_bind]
    exact agree_tail c step labels hb
  | some s =>
    refine .unfold ((unfolds_stmt?_some s).before _) (.unfold_right (unfolds_stmts_cons s _) ?_)
    refine (Agree.refl (fun _ => rfl) _).bind_of (· = .normal)
      (fun hrun => flow_of_isInit (hinit s rfl) hrun) ?_
    rintro _ rfl
    exact agree_tail c step labels hb

/-- A `for` loop is its `while` form. If its first part is missing, a variable or an
expression, and its body is a block without a free `continue`, then in every environment both
never end, or both finish with the same flow in the same environment, or both fail with the
same error and the same output. -/
theorem for_as_while (env : Env) : SameEnd Eq (stmt · (.forLoop init c step (.block b) scope range))
    (stmt · (.whileForm labels init c step (.block b))) env :=
  Agree.sameEnd (fun _ => agree_whileForm labels init c step b scope range hinit hb) rfl

end

/-- A loop without a condition, which counts in its step and is left by a `break`. -/
theorem for_as_while_counting :
    let int (k : Int64) : Expr := .literal (.int k) .unknown
    let i : Expr := .name ⟨"i", .unknown⟩
    let x : Expr := .name ⟨"x", .unknown⟩
    let init : Stmt :=
      .decl (.var ⟨⟨0⟩, ⟨"i", .unknown⟩, none, some (int 0), false, ⟨1⟩, .unknown⟩) .unknown
    let step : Expr := .unary (.post .up) i .unknown
    let body : Block :=
      ⟨[.ifElse (.binary (.compare .eq) i (int 2) .unknown) (.break .unknown) none .unknown,
        .expr (.binary .assign x i .unknown) .unknown], ⟨2⟩, .unknown⟩
    let labels : WhileLabels := ⟨⟨1⟩, ⟨3⟩, .unknown, .unknown, .unknown, .unknown, .unknown⟩
    let loop : Stmt := .forLoop (some init) none (some step) (.block body) ⟨1⟩ .unknown
    let form : Stmt := .whileForm labels (some init) none (some step) (.block body)
    let env (k : Int64) : Env := { stack := { bottom := ⟨[("x", ⟨.var, .int k⟩)]⟩ } }
    init.IsInit ∧ body.hasFree .continue = false ∧
      stmt 20 loop (env 0) = .ok .normal (env 1) ∧ stmt 20 form (env 0) = .ok .normal (env 1) ∧
      SameEnd Eq (stmt · loop) (stmt · form) (env 0) := by
  intro int i x init step body labels loop form env
  have hinit : ∀ s ∈ some init, s.IsInit := by
    rintro s ⟨⟩
    trivial
  exact ⟨trivial, rfl, rfl, rfl,
    for_as_while labels (some init) none (some step) body ⟨1⟩ .unknown hinit rfl (env 0)⟩

end Eval

end Rill
