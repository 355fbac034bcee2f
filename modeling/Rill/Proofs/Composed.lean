import Rill.Proofs.Plan

/-!
# What evaluations are composed of

Whatever the evaluator does, it does by a few single steps : it opens and drops frames, binds,
finds and sets names, prints, stops, and runs a step one call deeper (`Eval.Composed`). Nothing
else reads or changes the environment. So what holds of these and is kept when steps follow each
other holds of all tasks (`Eval.composed_perform`), programs and scripts, and is proved by
induction on how they are composed.
-/

namespace Rill.Eval

/-- A step that is composed of single steps. -/
inductive Composed : {α : Type} → Eval α → Prop
  | pure {α : Type} (a : α) : Composed (Pure.pure a : Eval α)
  | stop {α : Type} (why : Stop) : Composed (throw why : Eval α)
  | bind {α β : Type} {act : Eval α} {k : α → Eval β} (hact : Composed act)
      (hk : ∀ a, Composed (k a)) : Composed (act >>= k)
  | push : Composed push
  | pop : Composed pop
  | add (name : String) (symbol : Symbol) (range : Range) : Composed (add name symbol range)
  | find? (name : String) : Composed (find? name)
  | set (name : String) (value : Value) : Composed (set name value)
  | print (args : List Value) : Composed (print args)
  | calling {α : Type} (range : Range) {act : Eval α} (hact : Composed act) :
      Composed (calling range act)

variable {α : Type} {n : Nat}

theorem composed_fail (fault : RuntimeFault) (range : Range) :
    Composed (fail fault range : Eval α) := .stop _

theorem composed_located (range : Range) (r : Except RuntimeFault α) :
    Composed (located range r) := by
  cases r with
  | ok a => exact .pure a
  | error fault => exact .stop _

theorem composed_lookup (ident : Ident) : Composed (lookup ident) := by
  refine (Composed.find? ident.name).bind fun found => ?_
  cases found with
  | some symbol => exact .pure _
  | none =>
    dsimp only
    split
    · exact .pure _
    · exact composed_fail _ _

/-- To find what is assigned to is to look up a name. -/
theorem composed_target (e : Expr) : Composed (target e) := by
  unfold target
  cases e.ident? with
  | none => exact composed_fail _ _
  | some ident =>
    refine (Composed.find? ident.name).bind fun found => ?_
    cases found with
    | none => exact composed_fail _ _
    | some symbol =>
      obtain ⟨kind, value⟩ := symbol
      cases kind with
      | var => exact .pure _
      | const | func => exact composed_fail _ _

theorem composed_mainFunction : Composed mainFunction := by
  refine (Composed.find? "main").bind fun found => ?_
  split
  · exact .pure _
  · exact composed_fail _ _

theorem composed_bindArgs (params : List Variable) (args : List Value) :
    Composed (bindArgs params args) := by
  induction params generalizing args with
  | nil => exact .pure ()
  | cons param params ih =>
    cases args with
    | nil => exact .pure ()
    | cons arg args => exact (Composed.add _ _ _).bind fun _ => ih args

theorem composed_leave (flow : Flow) : Composed (leave flow) := by
  have hresult : Composed result := by
    refine (Composed.find? resultName).bind fun found => ?_
    cases found <;> exact .pure _
  cases flow with
  | «break» range => exact composed_fail _ _
  | «continue» range => exact composed_fail _ _
  | _ => exact hresult.bind fun v => Composed.pop.bind fun _ => .pure v

/-- Every step of a plan is composed of single steps. -/
theorem Step.composed {gains : Bool} (s : Step gains α) : Composed s.run := by
  cases s with
  | done a => exact .pure a
  | fail e => exact .stop _
  | lookup ident => exact composed_lookup ident
  | update e range new answer =>
    refine (composed_target e).bind fun p => (composed_located range _).bind fun v => ?_
    exact (Composed.set p.1 v).bind fun _ => .pure _
  | deliver v => exact (Composed.set resultName v).bind fun _ => .pure _
  | bind name symbol range => exact .add name symbol range
  | print args => exact (Composed.print args).bind fun _ => .pure _

/-- What a plan does is composed of single steps if its tasks are. -/
theorem Plan.composed (ih : ∀ t : Task, Composed (t.perform n)) {i : Innermost} (plan : Plan i α) :
    Composed (plan.run n) := by
  induction plan with
  | step s => exact s.composed
  | task t _ k ihk => exact (ih t).bind ihk
  | framed t k ihk => exact Composed.push.bind fun _ => (ih t).bind ihk
  | close a => exact Composed.pop.bind fun _ => .pure a
  | call f args range => exact (ih (.run f args)).calling range
  | invoke f args =>
    have henter : Composed (enter f args) :=
      Composed.push.bind fun _ => (Composed.add _ _ _).bind fun _ => composed_bindArgs _ _
    exact henter.bind fun _ => (ih (.stmts f.body.stmts)).bind composed_leave
  | main k ihk => exact composed_mainFunction.bind ihk

/-- Every task is composed of single steps. -/
theorem composed_perform (n : Nat) (t : Task) : Composed (t.perform n) := by
  induction n generalizing t with
  | zero =>
    have hzero : t.perform 0 = throw .exhausted := funext fun env => t.perform_zero env
    rw [hzero]
    exact .stop _
  | succ n ih =>
    rw [Task.perform_succ]
    exact t.plan.composed ih

theorem composed_program (n : Nat) (p : Program) : Composed (p.run n) := by
  rw [← run_programPlan]
  exact (programPlan p).composed (composed_perform n)

theorem composed_outerStmts (n : Nat) (ss : List Stmt) : Composed (outerStmts n ss) := by
  rw [← run_outerPlan]
  exact (outerPlan ss).composed (composed_perform n)

end Rill.Eval
