import Rill.Proofs.ResultSlot

/-!
# The result of a call

A `return` does two things : it writes its value to the name of the result and it raises a signal. A
call takes its result from the name, not from the signal, and the two can differ, since the name can
be declared and assigned like any other (`Eval.result_not_returned`).

What a call gives is what its own slot holds when the statements of its body have finished. If they
have finished with the `return` of a value, a `return` statement was executed in that activation,
and since then frames have only been dropped (`Eval.returnedAt`); so the value is in the slot unless
the name was bound in a frame above it, which then has taken the value (`Eval.results_of_return`).
If they have finished normally, the slot still holds null unless the activation itself has written
to it (`Eval.keeps_perform`).
-/

namespace Rill.Eval

variable {n : Nat} {env : Env}

/-! ## Where a return comes from -/

/-- Whether a task that executes statements has finished with the `return` of a value. -/
def Task.Gives : (t : Task) → t.Answer → Value → Prop
  | .stmt _, flow, v | .stmt? _, flow, v | .stmts _, flow, v
  | .loop .., flow, v | .doLoop .., flow, v => flow = .return v
  | _, _, _ => False

/-- In the course of a task a `return` statement has returned a value, and since then frames have
been dropped at most. -/
def ReturnedAt (n : Nat) (t : Task) (env : Env) (v : Value) (last : Env) : Prop :=
  ∃ k value range e e', ⟨k, .stmt (.return value range), e⟩ ∈ t.activation n env ∧
    stmt k (.return value range) e = .ok (.return v) e' ∧ last.results <:+ e'.results

section

variable {v : Value} {last : Env}

theorem ReturnedAt.closed {t : Task} (h : ReturnedAt n t env v last) :
    ReturnedAt n t env v last.closed := by
  obtain ⟨k, value, range, e, e', hmem, hreturn, hlast⟩ := h
  exact ⟨k, value, range, e, e', hmem, hreturn, last.results_closed_suffix.trans hlast⟩

/-- What has been returned in a part of a task has been returned in the task, unless that is a
call. -/
theorem ReturnedAt.of_part {t part : Task} {env₁ : Env} (h : ReturnedAt n part env₁ v last)
    (hpart : (part, env₁) ∈ t.parts n env) (ht : t.isCall = false) :
    ReturnedAt (n + 1) t env v last := by
  obtain ⟨k, value, range, e, e', hmem, hreturn, hlast⟩ := h
  exact ⟨k, value, range, e, e', Task.mem_course_succ.2 (.inr ⟨ht, _, hpart, hmem⟩), hreturn, hlast⟩

/-- A plan gives the `return` of a value, which is what `gives` says of its answer, only by passing
on what the last task gave that it has started. `given` says whether that one gave it. -/
def Plan.PassesOn (v : Value) {i : Innermost} {α : Type} (gives : α → Prop) :
    Plan i α → (given : Prop) → Prop
  | .step s, given => ∀ env a last, s.run env = .ok a last → gives a → last = env ∧ given
  | .task t _ k, _ | .framed t k, _ => ∀ a, (k a).PassesOn v gives (t.Gives a v)
  | .close a, given => gives a → given
  | .call .., _ | .invoke .., _ | .main _, _ => False

theorem Plan.passesOn_done {gains : Bool} {α : Type} {gives : α → Prop} {a : α} {given : Prop}
    (h : gives a → given) : (done a : Plan (.given gains) α).PassesOn v gives given := by
  intro env b last hrun hb
  obtain ⟨rfl, rfl⟩ := EStateM.Result.ok.inj hrun
  exact ⟨rfl, h hb⟩

theorem Plan.passesOn_condition {gains : Bool} {α : Type} {gives : α → Prop} {c : Expr} {w : Value}
    {k : Bool → Plan (.given gains) α} {given : Prop}
    (h : ∀ holds, (k holds).PassesOn v gives given) :
    (condition c w k).PassesOn v gives given := by
  unfold condition
  cases w.bool? with
  | some holds => exact h holds
  | none => exact fun env a last hrun => by cases hrun

/-- What a plan passes on has been returned in the task that it is the plan of, if what its parts
give has been returned in them. -/
theorem Plan.returnedAt {t : Task} (ht : t.isCall = false)
    (ih : ∀ (t : Task) env a v last, t.perform n env = .ok a last → t.Gives a v →
      ReturnedAt n t env v last)
    {i : Innermost} {α : Type} {gives : α → Prop} (plan : Plan i α) :
    ∀ {given : Prop} {env₁ : Env} {a : α} {last : Env}, plan.PassesOn v gives given →
      (∀ p ∈ plan.parts n env₁, p ∈ t.parts n env) → (given → ReturnedAt (n + 1) t env v env₁) →
      plan.run n env₁ = .ok a last → gives a → ReturnedAt (n + 1) t env v last := by
  induction plan with
  | step s =>
    intro given env₁ a last h _ hgiven hrun ha
    obtain ⟨rfl, hlast⟩ := h env₁ a last hrun ha
    exact hgiven hlast
  | task t' _ k ihk =>
    intro given env₁ a last h hparts _ hrun ha
    obtain ⟨b, env₂, hb, hrest⟩ := ok_of_bind hrun
    refine ihk b (h b) (fun p hp => hparts p (Task.mem_andThen_of_ok hb hp)) (fun hgives => ?_)
      hrest ha
    exact (ih t' _ b v env₂ hb hgives).of_part (hparts _ Task.mem_andThen_self) ht
  | framed t' k ihk =>
    intro given env₁ a last h hparts _ hrun ha
    have hinside : (t'.perform n >>= fun a => (k a).run n) env₁.opened = .ok a last := hrun
    obtain ⟨b, env₂, hb, hrest⟩ := ok_of_bind hinside
    refine ihk b (h b) (fun p hp => hparts p (Task.mem_andThen_of_ok hb hp)) (fun hgives => ?_)
      hrest ha
    exact (ih t' _ b v env₂ hb hgives).of_part (hparts _ Task.mem_andThen_self) ht
  | close a =>
    intro given env₁ b last h _ hgiven hrun ha
    obtain ⟨rfl, rfl⟩ := EStateM.Result.ok.inj hrun
    exact (hgiven (h ha)).closed
  | call | invoke | main => exact fun h => h.elim

/-- A statement other than a `return` passes on what its parts return. -/
theorem passesOn_stmtPlan {s : Stmt} (hs : s.kind ≠ .return) :
    (stmtPlan s).PassesOn v (· = .return v) False := by
  cases s with
  | «return» => exact absurd rfl hs
  | caseLabel | defaultLabel | «continue» | «break» => exact Plan.passesOn_done fun h => by cases h
  | expr | decl => exact fun _ => Plan.passesOn_done fun h => by cases h
  | block => exact fun _ => id
  | ifElse c a b range =>
    refine fun _ => Plan.passesOn_condition fun holds => ?_
    cases holds <;> exact fun _ => Plan.passesOn_done id
  | whileDo | doWhile => exact fun _ => Plan.passesOn_done id
  | forLoop => exact fun _ _ => id
  | «switch» subject body range =>
    intro _ rest
    cases rest with
    | none => exact Plan.passesOn_done fun h => by cases h
    | some rest => exact fun flow h => by cases flow <;> simp_all [Flow.afterSwitch, Task.Gives]

/-- What comes after a pass of a loop is the `return` of the pass or what comes after the loop. -/
theorem eq_return_of_afterPass {flow : Flow} (h : flow.afterPass = some (.return v)) :
    flow = .return v := by
  cases flow <;> simp_all [Flow.afterPass]

/-- A task that is no `return` itself passes on what its parts return. -/
theorem passesOn_plan {t : Task} {a : t.Answer} (ha : t.Gives a v)
    (ht : ∀ value range, t ≠ .stmt (.return value range)) :
    t.plan.PassesOn v (t.Gives · v) False := by
  cases t with
  | stmt s =>
    refine passesOn_stmtPlan fun hs => ?_
    cases s with
    | «return» value range => exact ht value range rfl
    | _ => cases hs
  | stmt? s =>
    cases s with
    | none => exact Plan.passesOn_done fun h => by cases h
    | some s => exact fun _ => Plan.passesOn_done id
  | stmts ss =>
    cases ss with
    | nil => exact Plan.passesOn_done fun h => by cases h
    | cons s rest =>
      intro flow
      cases flow with
      | normal => exact fun _ => Plan.passesOn_done id
      | _ => exact Plan.passesOn_done id
  | loop c step body =>
    intro holds
    cases holds with
    | false => exact Plan.passesOn_done fun h => by cases h
    | true =>
      intro flow
      cases hpass : flow.afterPass with
      | some flow' =>
        simp only [hpass]
        exact Plan.passesOn_done fun h => eq_return_of_afterPass (h ▸ hpass)
      | none =>
        simp only [hpass]
        exact fun _ _ => Plan.passesOn_done id
  | doLoop body c =>
    intro flow
    cases hpass : flow.afterPass with
    | some flow' =>
      simp only [hpass]
      exact Plan.passesOn_done fun h => eq_return_of_afterPass (h ▸ hpass)
    | none =>
      simp only [hpass]
      refine fun _ => Plan.passesOn_condition fun holds => ?_
      cases holds with
      | false => exact Plan.passesOn_done fun h => by cases h
      | true => exact fun _ => Plan.passesOn_done id
  | _ => exact absurd ha id

end

/-- The `return` of a value comes from a `return` statement, and nothing follows it but
the dropping of frames. -/
theorem returnedAt (n : Nat) (t : Task) (env : Env) (a : t.Answer) (v : Value) (last : Env)
    (h : t.perform n env = .ok a last) (ha : t.Gives a v) : ReturnedAt n t env v last := by
  induction n generalizing t env v last with
  | zero =>
    rw [Task.perform_zero] at h
    cases h
  | succ n ih =>
    by_cases ht : ∃ value range, t = .stmt (.return value range)
    · obtain ⟨value, range, rfl⟩ := ht
      obtain rfl := ha
      exact ⟨n + 1, value, range, env, last, Task.mem_course_succ.2 (.inl rfl), h,
        List.suffix_refl _⟩
    · have hcall : t.isCall = false := by cases t <;> first | rfl | exact absurd ha id
      refine t.plan.returnedAt hcall ih (passesOn_plan ha fun value range heq => ?_) ?_ False.elim
        (by rwa [← Task.perform_succ]) ha
      · exact ht ⟨value, range, heq⟩
      · rw [Task.parts_eq]
        exact fun _ hp => hp

/-! ## What a return writes -/

/-- To set the result changes the innermost slot. -/
theorem results_set {v : Value} {env' : Env} (h : set resultName v env = .ok () env') :
    env'.results = Stack.setHead v env.results := by
  obtain ⟨-, rfl⟩ := EStateM.Result.ok.inj h
  simp only [Env.results]
  cases hset : env.stack.set? resultName v with
  | none =>
    have hnone := Stack.bound_of_set?_eq_none hset
    simp [hnone, Stack.setHead]
  | some stack =>
    rw [Option.getD_some, Stack.bound_set? hset, if_pos rfl]

/-- A `return` writes to the innermost binding of the name of the result. -/
theorem results_of_return {value : Option Expr} {range : Range} {v : Value} {e e' : Env}
    {top : Symbol} {rest : List Symbol} (h : stmt n (.return value range) e = .ok (.return v) e')
    (he : e.results = top :: rest) : ∃ symbol, e'.results = symbol :: rest ∧ symbol.value = v := by
  cases n with
  | zero => cases h
  | succ n =>
    obtain ⟨v', e₁, hvalue, hrest⟩ := ok_of_bind h
    obtain ⟨_, e₂, hset, hend⟩ := ok_of_bind hrest
    obtain ⟨hv, rfl⟩ := EStateM.Result.ok.inj hend
    obtain rfl := Flow.return.inj hv
    have hgrown := (leaves_perform n (.expr? value)).grown hvalue
    have hlength : e₁.results.length = e.results.length := hgrown.length_results
    have hshields : Shields e.results e₁.results := hgrown.stack.bound resultName
    rw [he] at hlength hshields
    obtain ⟨own, he₁⟩ := hshields.eq_cons hlength
    refine ⟨{ own with value := v' }, ?_, rfl⟩
    rw [results_set hset, he₁]
    rfl

/-- A call that finishes gives what its own slot for the result holds at the end of its body; the
slot starts with null, and the bindings of the callers are left alone. If the body has finished
normally, this is null, unless the activation has written to the name of the result where no frame
above binds it. If the body has finished with the `return` of a value, this is that value, unless
frames above the slot bound the name when the `return` statement was executed : then it is what
the slot held before. -/
theorem result_of_call {f : Func} {args : List Value} {range : Range} {w : Value} {env' : Env}
    (h : call n f args range env = .ok w env') :
    ∃ k start flow last slot, n = k + 2 ∧ enter f args env.deeper = .ok () start ∧
      start.results = ⟨.var, .null⟩ :: env.results ∧ stmts k f.body.stmts start = .ok flow last ∧
      last.results = slot :: env.results ∧ w = slot.value ∧
      (flow = .normal ∧
        ((∀ x ∈ (Task.stmts f.body.stmts).activation k start, x.task.writesResult →
          env.results.length + 1 < x.env.results.length) → w = .null) ∨
      ∃ v m value place e e' shadows own, flow = .return v ∧
        ⟨m, .stmt (.return value place), e⟩ ∈ (Task.stmts f.body.stmts).activation k start ∧
        stmt m (.return value place) e = .ok (.return v) e' ∧
        e.results = shadows ++ own :: env.results ∧
        w = if shadows.isEmpty then v else own.value) := by
  obtain ⟨k', rfl, hcalling⟩ := ok_of_call h
  obtain ⟨last', hrun, -⟩ := ok_of_calling hcalling
  obtain ⟨k, start, flow, last, rfl, henter, hstmts, hflow, hw, -⟩ := ok_of_run hrun
  obtain ⟨-, hstart⟩ := results_of_enter henter
  obtain ⟨slot, hslot⟩ := slot_of_stmts henter hstmts
  have houter : env.deeper.results = env.results := rfl
  rw [houter] at hstart hslot
  have hvalue : w = slot.value := by rw [hw, hslot]; rfl
  refine ⟨k, start, flow, last, slot, rfl, henter, hstart, hstmts, hslot, hvalue, ?_⟩
  rcases hflow with rfl | ⟨v, rfl⟩
  · refine .inl ⟨rfl, fun hwrites => ?_⟩
    have hspares : SparesSlot start.results ((Task.stmts f.body.stmts).activation k start) := by
      rw [hstart]
      exact hwrites
    have hkept :=
      keeps_perform k (.stmts f.body.stmts) start hspares (List.suffix_refl _) _ last hstmts
    rw [hstart, hslot] at hkept
    have hsame := hkept.eq_of_length rfl
    rw [hvalue, ← (List.cons.inj hsame).1]
  · obtain ⟨m, value, place, e, e', hmem, hreturn, hlast⟩ :=
      returnedAt k (.stmts f.body.stmts) start _ v last hstmts rfl
    have hunder := (Task.under_of_mem_course hmem).bound resultName
    have hshields : Shields start.results e.results := hunder
    rw [hstart] at hshields
    obtain ⟨shadows, own, he⟩ := hshields.eq_append
    refine .inr ⟨v, m, value, place, e, e', shadows, own, rfl, hmem, hreturn, he, ?_⟩
    rw [hvalue]
    rw [hslot] at hlast
    cases shadows with
    | nil =>
      obtain ⟨symbol, he', hv⟩ := results_of_return hreturn he
      rw [he'] at hlast
      rw [(List.cons.inj (hlast.eq_of_length rfl)).1, hv]
      rfl
    | cons shadow shadows =>
      obtain ⟨symbol, he', -⟩ := results_of_return hreturn he
      rw [he'] at hlast
      have hown : own :: env.results <:+ symbol :: (shadows ++ own :: env.results) :=
        ⟨symbol :: shadows, rfl⟩
      have hsame := List.suffix_of_suffix_length_le hlast hown (Nat.le_refl _)
      rw [(List.cons.inj (hsame.eq_of_length rfl)).1]
      rfl

/-- A function that returns out of a block in which it has declared the name of the result, and one
that only assigns to the name there. -/
theorem result_of_call_declaring :
    let result : Expr := .name ⟨"return", .unknown⟩
    let assign (i : Int64) : Stmt :=
      .expr (.binary .assign result (.literal (.int i) .unknown) .unknown) .unknown
    let declare : Stmt :=
      .decl (.var ⟨⟨1⟩, ⟨"return", .unknown⟩, none, none, false, ⟨2⟩, .unknown⟩) .unknown
    let back : Stmt := .return (some (.literal (.int 5) .unknown)) .unknown
    let function (ss : List Stmt) : Func :=
      ⟨⟨0⟩, ⟨"f", .unknown⟩, none, [], ⟨ss, ⟨1⟩, .unknown⟩, ⟨0⟩, ⟨1⟩, .unknown⟩
    let f := function [assign 3, .block ⟨[declare, back], ⟨2⟩, .unknown⟩]
    let g := function [.block ⟨[declare, assign 3], ⟨2⟩, .unknown⟩]
    let start : Env := { stack := { inner := [⟨[("return", ⟨.var, .null⟩)]⟩] }, callDepth := 1 }
    let last : Env := { stack := { inner := [⟨[("return", ⟨.var, .int 3⟩)]⟩] }, callDepth := 1 }
    (call 20 f [] .unknown {} = .ok (.int 3) {} ∧
      stmts 18 f.body.stmts start = .ok (.return (.int 5)) last ∧
      ∃ slot, last.results = [slot] ∧ slot.value = .int 3) ∧
    (call 20 g [] .unknown {} = .ok .null {} ∧ stmts 18 g.body.stmts start = .ok .normal start ∧
      ∀ w env', call 20 g [] .unknown {} = .ok w env' → w = .null) := by
  intro result assign declare back function f g start last
  have hf : call 20 f [] .unknown {} = .ok (.int 3) {} := rfl
  have hg : call 20 g [] .unknown {} = .ok .null {} := rfl
  have hfbody : stmts 18 f.body.stmts start = .ok (.return (.int 5)) last := rfl
  have hgbody : stmts 18 g.body.stmts start = .ok .normal start := rfl
  have henter : ∀ ss, enter (function ss) [] ({} : Env).deeper = .ok () start := fun ss => rfl
  have hspares : ((Task.stmts g.body.stmts).activation 18 start).all
      (fun x => !x.task.writesResult || decide (1 < x.env.results.length)) = true := by
    decide +kernel
  refine ⟨⟨hf, hfbody, ?_⟩, hg, hgbody, fun w env' h => ?_⟩
  · obtain ⟨k, start', flow, last', slot, hk, hstart, -, hstmts, hslot, hw, -⟩ := result_of_call hf
    obtain rfl : k = 18 := by omega
    obtain ⟨-, rfl⟩ := EStateM.Result.ok.inj ((henter _).symm.trans hstart)
    obtain ⟨-, rfl⟩ := EStateM.Result.ok.inj (hfbody.symm.trans hstmts)
    exact ⟨slot, hslot, hw.symm⟩
  · obtain ⟨k, start', flow, last', slot, hk, hstart, -, hstmts, -, -, hend⟩ := result_of_call h
    obtain rfl : k = 18 := by omega
    obtain ⟨-, rfl⟩ := EStateM.Result.ok.inj ((henter _).symm.trans hstart)
    obtain ⟨rfl, rfl⟩ := EStateM.Result.ok.inj (hgbody.symm.trans hstmts)
    rcases hend with ⟨-, hnull⟩ | ⟨v, m, value, place, e, e', shadows, own, hflow, -⟩
    · refine hnull fun x hx hwrites => ?_
      have hx := List.all_eq_true.1 hspares x hx
      rw [hwrites, Bool.not_true, Bool.false_or, decide_eq_true_eq] at hx
      exact hx
    · cases hflow

/-- What the body of the main function of a program returns, if anything, and what a
call of it gives. -/
def bodyAndResult (n : Nat) (p : Program) : Option (Option String × String) :=
  match (do declareAll n p.decls; mainFunction : Eval Func) {} with
  | .error .. => none
  | .ok main env =>
    match enter main [] env.deeper, call (n + 2) main [] main.range env with
    | .ok _ start, .ok w _ =>
      match stmts n main.body.stmts start with
      | .ok (.return v) _ => some (some v.display, w.display)
      | .ok .normal _ => some (none, w.display)
      | _ => none
    | _, _ => none

/-- A body that returns 5 where a block has declared the name of the result, and one that returns
nothing but assigns to the name. -/
theorem result_not_returned :
    (Buffer.anonymous "func main() { { var return = 1; return 5; } }").program.toOption.bind
      (bodyAndResult 20) =
      some (some "5", "null") ∧
    (Buffer.anonymous "func main() { print(return = 3); }").program.toOption.bind
      (bodyAndResult 20) =
      some (none, "3") := by
  decide +kernel

end Rill.Eval
