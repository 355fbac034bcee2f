import Rill.Proofs.Composed
import Rill.Proofs.MoreSteps

/-!
# The limit of the call depth

Of two runs under different limits the one under the higher limit goes the same way until the other
is cut off. It is looked at what one step does in an environment and what it does in the same
environment under a higher limit (`Eval.Cuts`) : either the same, or the first step is cut off, and
then it has written a beginning of what the second one writes. A call is the only step that looks at
the limit, so the rest is an induction on how steps are composed; that a run which is cut off has
written a beginning holds because output is never taken back (`Eval.Composed.onward`).
-/

namespace Rill

/-! ## Output -/

namespace Sink

/-- What the first sink holds is a beginning of what the second one holds. -/
def Precedes (s s' : Sink) : Prop := ∃ more, s'.text = s.text ++ more

variable {s s' s'' : Sink}

theorem Precedes.refl (s : Sink) : s.Precedes s := ⟨"", String.append_empty.symm⟩

theorem Precedes.trans (h : s.Precedes s') (h' : s'.Precedes s'') : s.Precedes s'' := by
  obtain ⟨more, hmore⟩ := h
  obtain ⟨rest, hrest⟩ := h'
  exact ⟨more ++ rest, by rw [hrest, hmore, String.append_assoc]⟩

theorem precedes_take (s : Sink) (piece : String) : s.Precedes (s.take piece) :=
  ⟨piece, s.text_take piece⟩

/-- What has been written is never taken back, also when a piece is refused. -/
theorem precedes_writeAll (s : Sink) (pieces : List String) : s.Precedes (s.writeAll pieces).2 := by
  induction pieces generalizing s with
  | nil => exact .refl s
  | cons piece rest ih =>
    unfold writeAll
    cases s.refusal? piece with
    | none => exact (s.precedes_take piece).trans (ih (s.take piece))
    | some refusal => exact s.precedes_take _

end Sink

namespace Env

/-- An environment under another limit of the call depth. -/
def limited (env : Env) (limit : Nat) : Env := { env with maxCallDepth := limit }

/-- An environment and one that a step leaves : output is added, and the limit of the
call depth stays. -/
structure Onward (env env' : Env) : Prop where
  sink : env.sink.Precedes env'.sink
  maxCallDepth : env'.maxCallDepth = env.maxCallDepth

theorem Onward.refl (env : Env) : env.Onward env := ⟨.refl _, rfl⟩

theorem Onward.trans {env env' env'' : Env} (h : env.Onward env') (h' : env'.Onward env'') :
    env.Onward env'' := ⟨h.sink.trans h'.sink, h'.maxCallDepth.trans h.maxCallDepth⟩

end Env

namespace Eval

variable {α β : Type} {act : Eval α} {env : Env} {limit : Nat}

namespace Composed

/-- Output is never taken back, and the limit never changed. -/
theorem onward (h : Composed act) (env : Env) : env.Onward (left (act env)) := by
  induction h generalizing env with
  | pure | stop | find? => exact .refl env
  | push | pop | set => exact ⟨.refl _, rfl⟩
  | bind _ _ ihact ihk =>
    rename_i act k _ _
    have hact := ihact env
    cases hrun : act env with
    | ok a env' =>
      rw [hrun] at hact
      rw [bind_of_ok hrun]
      exact hact.trans (ihk a env')
    | error stop env' =>
      rw [hrun] at hact
      rw [bind_of_error hrun]
      exact hact
  | add name symbol range =>
    unfold Eval.add
    cases env.stack.add? name symbol with
    | some stack => exact ⟨.refl _, rfl⟩
    | none => exact .refl env
  | print args =>
    have hsink := env.sink.precedes_writeAll (args.flatMap env.cutting.pieces ++ ["\n"])
    unfold Eval.print write
    generalize env.sink.writeAll _ = written at hsink ⊢
    obtain ⟨refused, sink⟩ := written
    cases refused <;> exact ⟨hsink, rfl⟩
  | calling range _ ih =>
    rename_i act _
    by_cases hlimit : env.maxCallDepth ≤ env.callDepth
    · rw [calling_of_limit range hlimit]
      exact .refl env
    · have hact := ih env.deeper
      cases hrun : act env.deeper with
      | ok a env' =>
        rw [hrun] at hact
        rw [calling_of_ok range hlimit hrun]
        exact ⟨hact.sink, hact.maxCallDepth⟩
      | error stop env' =>
        rw [hrun] at hact
        rw [calling_of_error range hlimit hrun]
        exact ⟨hact.sink, hact.maxCallDepth⟩

/-- No step changes the limit. -/
theorem maxCallDepth_eq (h : Composed act) {env' : Env} {a : α} (hrun : act env = .ok a env') :
    env'.maxCallDepth = env.maxCallDepth := by
  have honward := h.onward env
  rw [hrun] at honward
  exact honward.maxCallDepth

/-- What comes after a step goes on from what it leaves. -/
theorem onward_left_bind {k : α → Eval β} (hk : ∀ a, Composed (k a)) (env : Env) :
    (left (act env)).Onward (left ((act >>= k) env)) := by
  cases hrun : act env with
  | ok a env' =>
    rw [bind_of_ok hrun]
    exact (hk a).onward env'
  | error stop env' =>
    rw [bind_of_error hrun]
    exact .refl _

end Composed

/-! ## One step under two limits -/

/-- What a step gives, with another limit in the environment that it leaves. -/
def limitedResult (limit : Nat) : EStateM.Result Stop Env α → EStateM.Result Stop Env α
  | .ok a env => .ok a (env.limited limit)
  | .error stop env => .error stop (env.limited limit)

/-- Under a higher limit a step does the same, unless it is cut off by the limit that the
environment has; then it has written a beginning of what it writes under the higher one. -/
inductive Cuts (act : Eval α) (env : Env) (limit : Nat) : Prop
  | same (h : act (env.limited limit) = limitedResult limit (act env))
  | cut {range : Range} {env' : Env}
      (h : act env = .error (.failed ⟨.callDepthExceeded env.maxCallDepth, range⟩) env')
      (houtput : env'.sink.Precedes (left (act (env.limited limit))).sink)

/-- Steps in sequence are only cut off by a limit if each of them is. -/
theorem Cuts.bind {k : α → Eval β} (hact : Composed act) (hk : ∀ a, Composed (k a))
    (h : Cuts act env limit)
    (hnext : ∀ a env', env'.maxCallDepth = env.maxCallDepth → Cuts (k a) env' limit) :
    Cuts (act >>= k) env limit := by
  cases h with
  | same heq =>
    cases hrun : act env with
    | ok a env' =>
      rw [hrun] at heq
      have hmax := hact.maxCallDepth_eq hrun
      cases hnext a env' hmax with
      | same h => exact .same (by rw [bind_of_ok hrun, bind_of_ok heq, h])
      | cut h houtput =>
        rw [hmax] at h
        refine .cut ((bind_of_ok hrun).trans h) ?_
        rw [bind_of_ok heq]
        exact houtput
    | error stop env' =>
      rw [hrun] at heq
      exact .same (by rw [bind_of_error hrun, bind_of_error heq]; rfl)
  | cut h houtput =>
    exact .cut (bind_of_error h) (houtput.trans (Composed.onward_left_bind hk _).sink)

/-- The depth is counted up and down alike under both limits, so that the calls that the lower one
allows are made under both. -/
theorem Cuts.calling (range : Range) (hact : Composed act) (hle : env.maxCallDepth ≤ limit)
    (h : Cuts act env.deeper limit) : Cuts (calling range act) env limit := by
  by_cases hlimit : env.maxCallDepth ≤ env.callDepth
  · exact .cut (calling_of_limit range hlimit)
      ((hact.calling range).onward (env.limited limit)).sink
  · have hlimit' : ¬(env.limited limit).maxCallDepth ≤ (env.limited limit).callDepth :=
      fun h => hlimit (Nat.le_trans hle h)
    cases h with
    | same heq =>
      refine .same ?_
      cases hrun : act env.deeper with
      | ok a env' =>
        rw [hrun] at heq
        rw [calling_of_ok range hlimit hrun, calling_of_ok range hlimit' heq]
        rfl
      | error stop env' =>
        rw [hrun] at heq
        rw [calling_of_error range hlimit hrun, calling_of_error range hlimit' heq]
        rfl
    | cut h houtput =>
      refine .cut (calling_of_error range hlimit h) ?_
      rw [left_calling range hlimit']
      exact houtput

/-- What is composed of single steps is only cut off by a limit. -/
theorem Composed.cuts (h : Composed act) (hle : env.maxCallDepth ≤ limit) : Cuts act env limit := by
  induction h generalizing env with
  | pure | stop | push | pop | find? | set => exact .same rfl
  | bind hact hk ihact ihk => exact (ihact hle).bind hact hk fun a env' hmax => ihk a (hmax ▸ hle)
  | add name symbol range =>
    refine .same ?_
    unfold Eval.add
    cases h : env.stack.add? name symbol with
    | some stack => simp only [Env.limited, h, limitedResult]
    | none => simp only [Env.limited, h, limitedResult]
  | print args =>
    refine .same ?_
    unfold Eval.print write
    cases h : env.sink.writeAll (args.flatMap env.cutting.pieces ++ ["\n"]) with
    | mk refused sink => cases refused <;> simp only [Env.limited, h, limitedResult]
  | calling range hact ih => exact Cuts.calling range hact hle (ih hle)

/-! ## Runs -/

/-- What the end of a run says about the same run under a higher limit of the call depth. A value,
and an error other than that the limit is exceeded, are the same there, with the same output and the
same frames. A run that exceeds the limit has written a beginning of what is written there. -/
structure LimitOnlyCuts (run : Nat → Eval Value) (env : Env) (limit : Nat) : Prop where
  value : ∀ v env', Ends run env (.ok v env') →
    Ends run (env.limited limit) (.ok v (env'.limited limit))
  error : ∀ e env', Ends run env (.error (.failed e) env') →
    (∀ depth, e.fault ≠ .callDepthExceeded depth) →
    Ends run (env.limited limit) (.error (.failed e) (env'.limited limit))
  output : ∀ depth range env',
    Ends run env (.error (.failed ⟨.callDepthExceeded depth, range⟩) env') →
    ∀ r, Ends run (env.limited limit) r → env'.sink.Precedes (left r).sink

theorem limitOnlyCuts_of_composed {run : Nat → Eval Value} (hcomposed : ∀ n, Composed (run n))
    (hle : env.maxCallDepth ≤ limit) : LimitOnlyCuts run env limit := by
  refine ⟨?_, ?_, ?_⟩
  · rintro v env' ⟨-, n, hn⟩
    refine ⟨fun _ h => (by cases h), n, fun m hm => ?_⟩
    cases (hcomposed m).cuts hle with
    | same heq => rw [heq, hn m hm]; rfl
    | cut hcut _ => cases (hn m hm).symm.trans hcut
  · rintro e env' ⟨-, n, hn⟩ hfault
    refine ⟨fun _ h => (by cases h), n, fun m hm => ?_⟩
    cases (hcomposed m).cuts hle with
    | same heq => rw [heq, hn m hm]; rfl
    | cut hcut _ =>
      cases (hn m hm).symm.trans hcut
      exact absurd rfl (hfault _)
  · rintro depth range env' ⟨-, n, hn⟩ r ⟨-, n', hn'⟩
    have hrun := hn (n + n') (Nat.le_add_right n n')
    have hrun' := hn' (n + n') (Nat.le_add_left n' n)
    cases (hcomposed (n + n')).cuts hle with
    | same heq =>
      rw [← hrun', heq, hrun]
      exact .refl _
    | cut hcut houtput =>
      cases hrun.symm.trans hcut
      exact hrun' ▸ houtput

/-- The limit of the call depth only cuts runs off. -/
theorem limit_only_cuts (env : Env) (limit : Nat) (h : env.maxCallDepth ≤ limit) :
    (∀ p : Program, LimitOnlyCuts (fun n => p.run n) env limit) ∧
      ∀ s : Script, LimitOnlyCuts (fun n => s.run n) env limit :=
  ⟨fun p => limitOnlyCuts_of_composed (fun n => composed_program n p) h,
    fun s => limitOnlyCuts_of_composed (fun n => composed_outerStmts n s.stmts) h⟩

/-- A script that writes and then calls a function that writes, without any call allowed
and with one; and a program that returns a value and one that fails, where one call is
allowed and where two are. -/
theorem limit_only_cuts_writing :
    let say (text : String) : Stmt :=
      .expr (.call (.name ⟨"print", .unknown⟩) [.literal (.string text) .unknown] .unknown) .unknown
    let give (e : Expr) : Stmt := .return (some e) .unknown
    let func (body : List Stmt) : Func :=
      ⟨⟨0⟩, ⟨"main", .unknown⟩, none, [], ⟨body, ⟨1⟩, .unknown⟩, ⟨0⟩, ⟨1⟩, .unknown⟩
    let call : Stmt := .expr (.call (.name ⟨"main", .unknown⟩) [] .unknown) .unknown
    let script : Script :=
      ⟨[.decl (.func (func [say "b"])) .unknown, say "a", call], .unknown, .initial, .empty⟩
    let program (e : Expr) : Program := ⟨[.func (func [give e])], .unknown, .initial, .empty⟩
    let five : Expr := .literal (.int 5) .unknown
    let missing : Expr := .name ⟨"x", .unknown⟩
    let last (body : List Stmt) (frames : List Frame) (written : List String) (limit : Nat) : Env :=
      { stack := ⟨frames, ⟨[("main", ⟨.func, .function (.user (func body))⟩)]⟩⟩
        sink := { written := written }
        maxCallDepth := limit }
    let frame : Frame := ⟨[("return", ⟨.var, .null⟩)]⟩
    let zero : Env := { maxCallDepth := 0 }
    let one : Env := { maxCallDepth := 1 }
    (zero.maxCallDepth ≤ 1 ∧
      Ends (fun n => script.run n) zero
        (.error (.failed ⟨.callDepthExceeded 0, .unknown⟩) (last [say "b"] [] ["\n", "a"] 0)) ∧
      Ends (fun n => script.run n) (zero.limited 1)
        (.ok .null (last [say "b"] [] ["\n", "b", "\n", "a"] 1)) ∧
      (last [say "b"] [] ["\n", "a"] 0).sink.Precedes
        (last [say "b"] [] ["\n", "b", "\n", "a"] 1).sink) ∧
    (one.maxCallDepth ≤ 2 ∧
      Ends (fun n => (program five).run n) one (.ok (.int 5) (last [give five] [] [] 1)) ∧
      Ends (fun n => (program five).run n) (one.limited 2)
        (.ok (.int 5) (last [give five] [] [] 2))) ∧
    (Ends (fun n => (program missing).run n) one
        (.error (.failed ⟨.unresolvedSymbol "x", .unknown⟩) (last [give missing] [frame] [] 1)) ∧
      Ends (fun n => (program missing).run n) (one.limited 2)
        (.error (.failed ⟨.unresolvedSymbol "x", .unknown⟩)
          (last [give missing] [frame] [] 2))) := by
  intro say give func call script program five missing last frame zero one
  have hscript : ∀ limit r, outerStmts 30 [call] (last [say "b"] [] ["\n", "a"] limit) = r →
      script.run 30 (zero.limited limit) = r := by
    intro limit r h
    have hdecl : outerStmt 30 (.decl (.func (func [say "b"])) .unknown) (zero.limited limit) =
      .ok .normal (last [say "b"] [] [] limit) := rfl
    have hsay : outerStmt 30 (say "a") (last [say "b"] [] [] limit) =
      .ok .normal (last [say "b"] [] ["\n", "a"] limit) := rfl
    exact (bind_of_ok hdecl).trans ((bind_of_ok hsay).trans h)
  have hcut : Ends (fun n => script.run n) zero
      (.error (.failed ⟨.callDepthExceeded 0, .unknown⟩) (last [say "b"] [] ["\n", "a"] 0)) :=
    ends_of_lasts (n := 30) (lasts_outerStmts · script.stmts) (hscript 0 _ rfl) fun _ h =>
      (by cases h)
  have hwhole : Ends (fun n => script.run n) (zero.limited 1)
      (.ok .null (last [say "b"] [] ["\n", "b", "\n", "a"] 1)) :=
    ends_of_lasts (n := 30) (lasts_outerStmts · script.stmts) (hscript 1 _ rfl) fun _ h =>
      (by cases h)
  have hfive : Ends (fun n => (program five).run n) one (.ok (.int 5) (last [give five] [] [] 1)) :=
    ends_of_lasts (n := 30) (lasts_program · (program five)) rfl fun _ h => (by cases h)
  have hmissing : Ends (fun n => (program missing).run n) one
      (.error (.failed ⟨.unresolvedSymbol "x", .unknown⟩) (last [give missing] [frame] [] 1)) :=
    ends_of_lasts (n := 30) (lasts_program · (program missing)) rfl fun _ h => (by cases h)
  have hzero := limit_only_cuts zero 1 (by decide)
  have hone := limit_only_cuts one 2 (by decide)
  exact ⟨⟨by decide, hcut, hwhole, (hzero.2 script).output _ _ _ hcut _ hwhole⟩,
    ⟨by decide, hfive, (hone.1 (program five)).value _ _ hfive⟩,
    ⟨hmissing, (hone.1 (program missing)).error _ _ hmissing fun _ h => (by cases h)⟩⟩

end Eval

end Rill
