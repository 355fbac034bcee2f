import Rill.Proofs.Conduct
import Rill.Proofs.Recovery
import Rill.Proofs.Returns

/-!
# The slot for the result

A call binds the name of the result in its own frame, and whatever is bound to that name at the end
is its result. The name can be bound again in frames that the body opens, and it can be assigned
like any other. This module says what becomes of the bindings of the name, from the innermost
outwards : a call leaves those of its caller as they were (`Eval.results_call`), since its own comes
before them; and an activation that writes to the name only where it is bound again, or not at all,
leaves its slot as it was (`Eval.keeps_perform`).
-/

namespace Rill

/-- The symbols that the name of the result is bound to, from the innermost outwards. -/
def Env.results (env : Env) : List Symbol := env.stack.bound Eval.resultName

namespace Env

variable {gains : Bool} {env env' : Env}

/-- To drop a frame uncovers slots and changes none. -/
theorem results_closed_suffix (env : Env) : env.closed.results <:+ env.results :=
  Stack.bound_pop_suffix env.stack _

/-- An evaluation that gains no names leaves as many slots. -/
theorem Grown.length_results (h : env.Grown false env') :
    env'.results.length = env.results.length := by
  simp only [results, Stack.length_bound, h.stack.names_eq]

/-- Symbols that are left when a frame is dropped that was opened for an evaluation. -/
theorem Grown.suffix_closed {l : List Symbol} (h : env.opened.Grown gains env')
    (hl : l <:+ env.results) (hl' : l <:+ env'.results) : l <:+ env'.closed.results := by
  refine List.suffix_of_suffix_length_le hl' env'.results_closed_suffix ?_
  rw [h.closed.length_results]
  exact hl.length_le

end Env

namespace Eval

variable {α β : Type} {n : Nat} {env env' : Env}

/-! ## The start of a call -/

/-- To add a name may add a slot and changes none. -/
theorem suffix_of_add {name : String} {symbol : Symbol} {range : Range}
    (h : add name symbol range env = .ok () env') : env.results <:+ env'.results := by
  simp only [Env.results, Stack.bound_add? (ok_of_add h)]
  split
  · exact List.suffix_cons _ _
  · exact List.suffix_refl _

/-- To bind arguments may add a slot, for a parameter with the name of the result. -/
theorem suffix_of_bindArgs {params : List Variable} {args : List Value}
    (h : bindArgs params args env = .ok () env') : env.results <:+ env'.results := by
  induction params generalizing args env with
  | nil =>
    obtain ⟨-, rfl⟩ := EStateM.Result.ok.inj h
    exact List.suffix_refl _
  | cons param params ih =>
    cases args with
    | nil =>
      obtain ⟨-, rfl⟩ := EStateM.Result.ok.inj h
      exact List.suffix_refl _
    | cons arg args =>
      obtain ⟨_, env₁, hadd, hrest⟩ := ok_of_bind h
      exact (suffix_of_add hadd).trans (ih hrest)

/-- The frame of a call starts with the slot for its result, which holds null. -/
theorem results_of_enter {f : Func} {args : List Value} {start : Env}
    (h : enter f args env = .ok () start) :
    (∃ params, start.stack.names = ((resultName, .var) :: params) :: env.stack.names) ∧
      start.results = ⟨.var, .null⟩ :: env.results := by
  have hslot : (add resultName ⟨.var, .null⟩ f.range >>= fun _ => bindArgs f.params args)
      env.opened =
      .ok () start := h
  obtain ⟨_, env₁, hadd, hargs⟩ := ok_of_bind hslot
  obtain ⟨top, rest, hopened, hnames⟩ := Stack.names_add? (ok_of_add hadd)
  obtain ⟨rfl, rfl⟩ := List.cons.inj hopened
  have hresults : env₁.results = ⟨.var, .null⟩ :: env.results := by
    simp only [Env.results, Stack.bound_add? (ok_of_add hadd), if_true]
    rfl
  have hgrown := (leaves_bindArgs f.params args).grown hargs
  refine ⟨?_, ?_⟩
  · obtain ⟨top, rest, params, hnames₁, hstart, -⟩ := hgrown.stack.names
    obtain ⟨rfl, rfl⟩ := List.cons.inj (hnames.symm.trans hnames₁)
    exact ⟨params, hstart⟩
  · -- a parameter with the name of the result would be a second binding in the frame
    have hlength : start.results.length = env₁.results.length :=
      hgrown.stack.length_bound_eq hnames (by simp)
    rw [← hresults]
    exact ((suffix_of_bindArgs hargs).eq_of_length hlength.symm).symm

/-! ## Calls -/

/-- The result of a call is the value of the innermost slot, or `null`. -/
theorem result_eq (env : Env) :
    result env = .ok ((env.results.head?.map (·.value)).getD .null) env := by
  have hfind : find? resultName env = .ok (env.results.head?) env :=
    congrArg (EStateM.Result.ok · env) (Stack.find?_eq_head? env.stack resultName)
  unfold result
  rw [bind_of_ok hfind]
  cases env.results.head? <;> rfl

/-- A body that gives a value has been executed to the end or up to a `return`. -/
theorem ok_of_run {f : Func} {args : List Value} {w : Value} (h : run n f args env = .ok w env') :
    ∃ k start flow last, n = k + 1 ∧ enter f args env = .ok () start ∧
      stmts k f.body.stmts start = .ok flow last ∧ (flow = .normal ∨ ∃ v, flow = .return v) ∧
      w = (last.results.head?.map (·.value)).getD .null ∧ env' = last.closed := by
  cases n with
  | zero => cases h
  | succ k =>
    rw [run_succ] at h
    obtain ⟨_, start, henter, hrest⟩ := ok_of_bind h
    obtain ⟨flow, last, hstmts, hend⟩ := ok_of_bind hrest
    have hvalue : (result >>= fun value => pop >>= fun _ => pure value) last =
        .ok ((last.results.head?.map (·.value)).getD .null) last.closed :=
      bind_of_ok (result_eq last)
    cases flow with
    | «break» | «continue» => cases hend
    | normal =>
      obtain ⟨rfl, rfl⟩ := EStateM.Result.ok.inj (hend.symm.trans hvalue)
      exact ⟨k, start, .normal, last, rfl, henter, hstmts, .inl rfl, rfl, rfl⟩
    | «return» v =>
      obtain ⟨rfl, rfl⟩ := EStateM.Result.ok.inj (hend.symm.trans hvalue)
      exact ⟨k, start, .return v, last, rfl, henter, hstmts, .inr ⟨v, rfl⟩, rfl, rfl⟩

/-- What is left of the slot at the end of a body comes right before the bindings of the caller. -/
theorem slot_of_stmts {k : Nat} {f : Func} {args : List Value} {ss : List Stmt} {start last : Env}
    {flow : Flow} (henter : enter f args env = .ok () start)
    (hstmts : stmts k ss start = .ok flow last) :
    ∃ slot, last.results = slot :: env.results := by
  obtain ⟨⟨params, hnames⟩, hresults⟩ := results_of_enter henter
  have hgrown := (leaves_perform k (.stmts ss)).grown hstmts
  have hlength : last.results.length = start.results.length :=
    hgrown.stack.length_bound_eq hnames (by simp)
  have hshields : Shields start.results last.results := hgrown.stack.bound resultName
  rw [hresults] at hlength hshields
  exact hshields.eq_cons hlength

/-- A body leaves the bindings of its caller as they were. -/
theorem results_run {f : Func} {args : List Value} {w : Value} (h : run n f args env = .ok w env') :
    env'.results = env.results := by
  have hlength := ((leaves_perform n (.run f args)).grown h).length_results
  obtain ⟨k, start, flow, last, -, henter, hstmts, -, -, rfl⟩ := ok_of_run h
  obtain ⟨slot, hlast⟩ := slot_of_stmts henter hstmts
  have hleft : env.results <:+ last.closed.results := by
    refine List.suffix_of_suffix_length_le ?_ last.results_closed_suffix (Nat.le_of_eq hlength.symm)
    rw [hlast]
    exact List.suffix_cons slot _
  exact (hleft.eq_of_length hlength.symm).symm

/-- What is run one call deeper leaves its stack behind. -/
theorem ok_of_calling {act : Eval α} {range : Range} {a : α}
    (h : calling range act env = .ok a env') :
    ∃ last, act env.deeper = .ok a last ∧ env'.stack = last.stack := by
  by_cases hlimit : env.maxCallDepth ≤ env.callDepth
  · cases (calling_of_limit range hlimit).symm.trans h
  · cases hrun : act env.deeper with
    | error stop last => cases (calling_of_error range hlimit hrun).symm.trans h
    | ok b last =>
      obtain ⟨rfl, rfl⟩ := EStateM.Result.ok.inj ((calling_of_ok range hlimit hrun).symm.trans h)
      exact ⟨last, rfl, rfl⟩

/-- A call that finishes leaves the slots as they were. -/
theorem results_calling {f : Func} {args : List Value} {range : Range} {w : Value}
    (h : calling range (run n f args) env = .ok w env') : env'.results = env.results := by
  obtain ⟨last, hrun, hstack⟩ := ok_of_calling h
  calc env'.results
      _ = last.results := by rw [Env.results, hstack, Env.results]
      _ = env.deeper.results := results_run hrun
      _ = env.results := rfl

/-- A call that finishes has taken a step and has run its function. -/
theorem ok_of_call {f : Func} {args : List Value} {range : Range} {w : Value}
    (h : call n f args range env = .ok w env') :
    ∃ k, n = k + 1 ∧ calling range (run k f args) env = .ok w env' := by
  cases n with
  | zero => cases h
  | succ k =>
    simp only [call] at h
    split at h
    · cases h
    · exact ⟨k, rfl, h⟩

/-- A call leaves the bindings of its caller as they were. -/
theorem results_call {f : Func} {args : List Value} {range : Range} {w : Value}
    (h : call n f args range env = .ok w env') : env'.results = env.results := by
  obtain ⟨k, -, hcalling⟩ := ok_of_call h
  exact results_calling hcalling

/-! ## Writing to the name of the result -/

/-- Whether an expression is the name of the result. -/
def namesResult (e : Expr) : Bool := e.ident?.any (·.name == resultName)

/-- Whether a task itself writes to the name of the result : an assignment or a step, or a
`return`. -/
def Task.writesResult : Task → Bool
  | .expr (.unary op operand _) => op.isStep && namesResult operand
  | .expr (.binary .assign lhs _ _) | .expr (.binary (.compound _) lhs _ _) => namesResult lhs
  | .stmt (.return ..) => true
  | _ => false

/-- Moments at which the name of the result is written to only where it is bound more than
`l` binds it. -/
def SparesSlot (l : List Symbol) (ms : List Moment) : Prop :=
  ∀ x ∈ ms, x.task.writesResult → l.length < x.env.results.length

/-- A step that finishes keeps the outermost symbols of the name of the result. -/
def Keeps (l : List Symbol) (act : Eval α) (env : Env) : Prop :=
  l <:+ env.results → ∀ a env', act env = .ok a env' → l <:+ env'.results

/-- A step that does not change the stack. -/
def Still (act : Eval α) : Prop := ∀ env a env', act env = .ok a env' → env'.stack = env.stack

theorem Still.keeps {l : List Symbol} {act : Eval α} (h : Still act) : Keeps l act env := by
  intro hl a env' hact
  rwa [Env.results, h env a env' hact]

theorem still_pure (a : α) : Still (pure a : Eval α) := by
  intro env b env' h
  obtain ⟨-, rfl⟩ := EStateM.Result.ok.inj h
  rfl

theorem still_fail (fault : RuntimeFault) (range : Range) : Still (fail fault range : Eval α) :=
  nofun

/-- Steps in sequence do not change the stack if none of them does. -/
theorem Still.bind {act : Eval α} {k : α → Eval β} (h : Still act) (hk : ∀ a, Still (k a)) :
    Still (act >>= k) := by
  intro env b env' hrun
  obtain ⟨a, env₁, hact, hrest⟩ := ok_of_bind hrun
  exact (hk a env₁ b env' hrest).trans (h env a env₁ hact)

theorem still_located (range : Range) (r : Except RuntimeFault α) : Still (located range r) := by
  cases r with
  | ok a => exact still_pure a
  | error fault => exact nofun

theorem still_find? (name : String) : Still (find? name) := by
  intro env a env' h
  obtain ⟨-, rfl⟩ := EStateM.Result.ok.inj h
  rfl

theorem still_lookup (ident : Ident) : Still (lookup ident) := by
  refine (still_find? ident.name).bind fun symbol => ?_
  cases symbol with
  | some symbol => exact still_pure _
  | none =>
    dsimp only
    split
    · exact still_pure _
    · exact still_fail _ _

theorem still_print (args : List Value) : Still (print args) := by
  intro env a env' h
  unfold print write at h
  split at h
  · obtain ⟨-, rfl⟩ := EStateM.Result.ok.inj h
    rfl
  · cases h

/-- Setting a name does not touch the symbols of the result below the innermost one. -/
theorem keeps_set {l : List Symbol} {name : String} (v : Value)
    (h : name = resultName → l.length < env.results.length) : Keeps l (set name v) env := by
  intro hl a env' hset
  obtain ⟨-, rfl⟩ := EStateM.Result.ok.inj hset
  simp only [Env.results]
  cases hrun : env.stack.set? name v with
  | none => exact hl
  | some stack =>
    rw [Option.getD_some, Stack.bound_set? hrun]
    split
    next hname =>
      have hlength := h hname.symm
      simp only [Env.results] at hl hlength
      cases hbound : env.stack.bound resultName with
      | nil => simp [hbound] at hlength
      | cons symbol rest =>
        rw [hbound] at hl hlength
        have hrest : l <:+ rest := List.suffix_of_suffix_length_le hl (List.suffix_cons symbol rest)
          (Nat.le_of_lt_succ hlength)
        exact hrest.trans (List.suffix_cons _ rest)
    next => exact hl

section

variable {l : List Symbol}

/-- Steps in sequence keep the slots if each does, from where it starts. -/
theorem Keeps.bind {act : Eval α} {k : α → Eval β} (h : Keeps l act env)
    (hk : ∀ a env', act env = .ok a env' → Keeps l (k a) env') : Keeps l (act >>= k) env := by
  intro hl b env' hrun
  obtain ⟨a, env₁, hact, hrest⟩ := ok_of_bind hrun
  exact hk a env₁ hact (h hl a env₁ hact) b env' hrest

end

/-! ## Evaluation -/

/-- A task that writes to the name of the result is told by its form. -/
theorem Task.writesResult_of_writes {t : Task} (h : t.Writes resultName) :
    t.writesResult = true := by
  unfold Task.Writes at h
  split at h
  · obtain ⟨hstep, i, hident, hname⟩ := h
    simp [writesResult, namesResult, hstep, hident, hname]
  · obtain ⟨i, hident, hname⟩ := h
    simp [writesResult, namesResult, hident, hname]
  · obtain ⟨i, hident, hname⟩ := h
    simp [writesResult, namesResult, hident, hname]
  · rfl
  · exact h.elim

section

variable {l : List Symbol} {c : Contract} {d : Deeds} {post : α → Prop}

/-- Setting a name to what has been computed from its value. -/
theorem keeps_update {e : Expr} {range : Range} {new : Value → Except RuntimeFault Value}
    {answer : Value → Value → Value}
    (hwrites : ∀ i, e.ident? = some i → i.name = resultName → l.length < env.results.length) :
    Keeps l (target e >>= fun p => located range (new p.2) >>= fun v => set p.1 v >>= fun _ =>
      pure (answer p.2 v)) env := by
  intro hl b env' hrun
  obtain ⟨⟨name, old⟩, env₁, htarget, hrest⟩ := ok_of_bind hrun
  obtain ⟨rfl, ⟨ident, hident, rfl⟩, -⟩ := ok_of_target htarget
  cases hnew : new old with
  | error fault =>
    rw [hnew] at hrest
    cases hrest
  | ok v =>
    rw [hnew] at hrest
    exact ((keeps_set v (hwrites ident hident)).bind fun _ _ _ => (still_pure _).keeps) hl b
      env' hrest

/-- The last step of a task keeps the symbols, if it writes to the name of the result only where
there are more of them. -/
theorem Step.keeps {gains : Bool} {s : Step gains α} (h : s.Meets c d post)
    (hwrites : d.writes resultName → l.length < env.results.length) : Keeps l s.run env := by
  cases s with
  | done a => exact (still_pure a).keeps
  | fail e => exact nofun
  | lookup ident => exact (still_lookup ident).keeps
  | update e range new answer =>
    exact keeps_update fun i hi hname => hwrites (hname ▸ h.2.2.1 i hi)
  | deliver v =>
    exact (keeps_set v fun _ => hwrites h.2.1).bind fun _ _ _ => (still_pure _).keeps
  | bind name symbol range => exact fun hl _ env' hadd => hl.trans (suffix_of_add hadd)
  | print args => exact ((still_print args).bind fun _ => still_pure _).keeps

/-- What is to be kept while a task is performed. Where it has opened a frame, the symbols have to
be there also without the frame. -/
def Innermost.Holds (l : List Symbol) : Innermost → Env → Prop
  | .given _, env => l <:+ env.results
  | .own, env =>
    l <:+ env.results ∧ ∃ base : Env, base.opened.Grown true env ∧ l <:+ base.results

/-- What is to be kept is there. -/
theorem Innermost.Holds.suffix {i : Innermost} (h : i.Holds l env) : l <:+ env.results := by
  cases i with
  | given gains => exact h
  | own => exact h.1

/-- What is to be kept stays while the frames only grow. -/
theorem Innermost.Holds.grown {i : Innermost} {gains : Bool} (h : i.Holds l env)
    (hgrown : env.Grown gains env') (hl : l <:+ env'.results) : i.Holds l env' := by
  cases i with
  | given gains => exact hl
  | own =>
    obtain ⟨-, base, hbase, hl'⟩ := h
    exact ⟨hl, base, hbase.trans hgrown.weaken, hl'⟩

/-- A plan keeps the slots if the tasks that it starts do and if it writes to no outer slot
itself. -/
theorem Plan.keeps {i : Innermost} {plan : Plan i α}
    (h : plan.Meets (.holding fun _ => True) d post)
    (hparts : ∀ p ∈ plan.parts n env, Keeps l (p.1.perform n) p.2)
    (hwrites : d.writes resultName → l.length < env.results.length) (hl : i.Holds l env) :
    ∀ a env', plan.run n env = .ok a env' → l <:+ env'.results := by
  have hanswers : ∀ {t : Task} {env env' : Env} {a : t.Answer},
      t.Allowed (.holding fun _ => True) → t.perform n env = .ok a env' →
        t.Answers (.holding fun _ => True) a := fun {t env env' a} ht hrun =>
    ((meets_perform n ht).of_ok (env.funcs_of_forall fun _ => trivial) hrun).1
  induction plan generalizing env with
  | step s => exact s.keeps h hwrites hl
  | task t _ k ihk =>
    intro b env' hrun
    obtain ⟨a, env₁, hact, hrest⟩ := ok_of_bind hrun
    obtain ⟨hself, hnext⟩ := Task.forall_mem_andThen.1 hparts
    have hgrown := (leaves_perform n t).grown hact
    refine ihk a (h.2 a (hanswers h.1.allowed hact)) (hnext a env₁ hact) (fun hw => ?_) ?_ b
      env' hrest
    · exact Nat.lt_of_lt_of_le (hwrites hw) (hgrown.stack.bound resultName).1
    · exact hl.grown hgrown (hself hl.suffix a env₁ hact)
  | framed t k ihk =>
    intro b env' hrun
    have hinside : (t.perform n >>= fun a => (k a).run n) env.opened = .ok b env' := hrun
    obtain ⟨a, env₁, hact, hrest⟩ := ok_of_bind hinside
    obtain ⟨hself, hnext⟩ := Task.forall_mem_andThen.1 hparts
    have hgrown := (leaves_perform n t).grown hact
    refine ihk a (h.2 a (hanswers h.1.allowed hact)) (hnext a env₁ hact) (fun hw => ?_) ?_ b
      env' hrest
    · exact Nat.lt_of_lt_of_le (hwrites hw) (hgrown.stack.bound resultName).1
    · exact ⟨hself hl a env₁ hact, env, hgrown.weaken, hl⟩
  | close a =>
    intro b env' hrun
    obtain ⟨hl, base, hgrown, hbase⟩ := hl
    obtain ⟨-, rfl⟩ := EStateM.Result.ok.inj hrun
    exact hgrown.suffix_closed hbase hl
  -- what a function does that is called is not looked at : its own slot comes before the others
  | call f args range => exact fun w env' hrun => (results_calling hrun).symm ▸ hl
  | invoke f args =>
    intro w env' hrun
    have hbody : Eval.run (n + 1) f args env = .ok w env' := (run_succ n f args) ▸ hrun
    exact (results_run hbody).symm ▸ hl
  | main k ihk =>
    rcases mainFunction_cases env with ⟨main, hmain⟩ | ⟨e, hmain⟩
    · rw [parts, hmain] at hparts
      exact fun a env' hrun =>
        ihk main (h.2 main trivial) hparts hwrites hl a env' ((bind_of_ok hmain).symm.trans hrun)
    · exact fun a env' hrun => by cases (bind_of_error hmain).symm.trans hrun

end

/-- An activation that writes to the name of the result only where the name is bound again leaves
the slot of the result, and what comes after it, as they were. -/
theorem keeps_perform {l : List Symbol} (n : Nat) (t : Task) (env : Env)
    (hspares : SparesSlot l (t.activation n env)) : Keeps l (t.perform n) env := by
  induction n generalizing t env with
  | zero =>
    intro _ a env' h
    rw [Task.perform_zero] at h
    cases h
  | succ n ih =>
    cases hcall : t.isCall with
    | true =>
      cases t with
      | call f args range => exact fun hl w env' h => (results_call h).symm ▸ hl
      | _ => cases hcall
    | false =>
      have hself := hspares _ (Task.mem_course_succ.2 (.inl rfl))
      rw [Task.perform_succ]
      refine fun hl =>
        Plan.keeps (Task.meets_plan t.allowed_free) (fun p hp => ?_) (fun hw => ?_) hl
      · rw [← Task.parts_eq] at hp
        exact ih p.1 p.2 fun x hx => hspares x (Task.mem_course_succ.2 (.inr ⟨hcall, p, hp, hx⟩))
      · exact hself (Task.writesResult_of_writes hw)

end Eval

end Rill
