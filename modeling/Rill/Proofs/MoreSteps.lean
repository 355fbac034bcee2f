import Rill.Proofs.History

/-!
# More steps keep an answer

An evaluation is given a number of steps and stops when they are used up. If it ends in another way,
with a value or with an error, then it ends in the same way with more steps : the number is no part
of the answer.

`Eval.Lasts act act'` says of two steps that the second does what the first does, unless the first
uses up its steps. A task uses them up only in one of its parts, and how it ends depends on how they
end (`Eval.Traced.lasts`); so the induction is on the number of steps, over all tasks at once
(`Eval.lasts_perform`). So it makes sense to say how an evaluation ends (`Eval.Ends`).
-/

namespace Rill.Eval

variable {α β : Type}

/-! ## Rules -/

/-- The second step ends as the first does, unless the first uses up its steps. -/
def Lasts (act act' : Eval α) : Prop :=
  ∀ env, (∃ env', act env = .error .exhausted env') ∨ act' env = act env

namespace Lasts

variable {act act' act'' : Eval α}

theorem refl (act : Eval α) : Lasts act act := fun _ => .inr rfl

theorem trans (h : Lasts act act') (h' : Lasts act' act'') : Lasts act act'' := by
  intro env
  rcases h env with hout | heq
  · exact .inl hout
  · rcases h' env with ⟨env', hout⟩ | heq'
    · exact .inl ⟨env', heq ▸ hout⟩
    · exact .inr (heq'.trans heq)

/-- Steps in sequence last if each of them does. -/
theorem bind {k k' : α → Eval β} (h : Lasts act act') (hk : ∀ a, Lasts (k a) (k' a)) :
    Lasts (act >>= k) (act' >>= k') := by
  intro env
  rcases h env with ⟨env', hout⟩ | heq
  · exact .inl ⟨env', bind_of_error hout⟩
  · cases hact : act env with
    | ok a env₁ =>
      rw [bind_of_ok hact, bind_of_ok (heq.trans hact)]
      exact hk a env₁
    | error stop env₁ =>
      rw [bind_of_error hact, bind_of_error (heq.trans hact)]
      exact .inr rfl

/-- An answer stays. -/
theorem eq_of_ok {env env' : Env} {a : α} (h : Lasts act act') (hact : act env = .ok a env') :
    act' env = .ok a env' := by
  rcases h env with ⟨env₁, hout⟩ | heq
  · rw [hact] at hout
    cases hout
  · exact heq.trans hact

/-- An error stays. -/
theorem eq_of_failed {env env' : Env} {e : RuntimeError} (h : Lasts act act')
    (hact : act env = .error (.failed e) env') : act' env = .error (.failed e) env' := by
  rcases h env with ⟨env₁, hout⟩ | heq
  · rw [hact] at hout
    cases hout
  · exact heq.trans hact

end Lasts

/-! ## Evaluation -/

theorem exists_of_spent {r : EStateM.Result Stop Env α} (h : spent r = true) :
    ∃ env', r = .error .exhausted env' := by
  cases r with
  | ok a env' => cases h
  | error stop env' =>
    cases stop with
    | failed e => cases h
    | exhausted => exact ⟨env', rfl⟩

/-- What does not use up its steps ends in the same way with more steps if its parts do : they do
not use up theirs, and how it ends depends on how they end. -/
theorem Traced.lasts {act : Nat → Eval α} {n m : Nat} {env : Env} {ps : List (Task × Env)}
    (h : Traced n act env ps) (hparts : ∀ p ∈ ps, Lasts (p.1.perform n) (p.1.perform m)) :
    (∃ env', act n env = .error .exhausted env') ∨ act m env = act n env := by
  cases hspent : Eval.spent (act n env) with
  | true => exact .inl (exists_of_spent hspent)
  | false =>
    rw [h.spent, List.any_eq_false] at hspent
    refine .inr (h.agree m fun p hp => ?_)
    rcases hparts p hp p.2 with ⟨env', hout⟩ | heq
    · exact absurd (by rw [hout]; rfl) (hspent p hp)
    · exact heq

/-- With more steps a task ends as it did, unless it had used them up. -/
theorem lasts_perform {n m : Nat} (h : n ≤ m) (t : Task) : Lasts (t.perform n) (t.perform m) := by
  induction n generalizing m t with
  | zero => exact fun env => .inl ⟨env, t.perform_zero env⟩
  | succ n ih =>
    obtain ⟨m, rfl⟩ : ∃ k, m = k + 1 := ⟨m - 1, by omega⟩
    exact fun env => (traced_perform (Task.path_history n) t env).lasts fun p _ =>
      ih (Nat.le_of_succ_le_succ h) p.1

theorem lasts_declareAll {n m : Nat} (h : n ≤ m) (ds : List Decl) :
    Lasts (declareAll n ds) (declareAll m ds) := by
  induction ds with
  | nil => exact .refl _
  | cons d rest ih => exact (lasts_perform h (.declare true d)).bind fun _ => ih

theorem lasts_outerStmts {n m : Nat} (h : n ≤ m) (ss : List Stmt) :
    Lasts (outerStmts n ss) (outerStmts m ss) := fun env =>
  (traced_outerStmts n ss env).lasts fun p _ => lasts_perform h p.1

theorem lasts_program {n m : Nat} (h : n ≤ m) (p : Program) : Lasts (p.run n) (p.run m) :=
  fun env => (traced_program n p env).lasts fun part _ => lasts_perform h part.1

/-! ## How an evaluation ends -/

/-- An evaluation comes to an end, with a value or with an error : given enough steps it does not
use them up, and more steps change nothing. -/
def Ends (run : Nat → Eval α) (env : Env) (r : EStateM.Result Stop Env α) : Prop :=
  (∀ env', r ≠ .error .exhausted env') ∧ ∃ n, ∀ m, n ≤ m → run m env = r

/-- To end with some number of steps is to end. -/
theorem ends_of_lasts {run : Nat → Eval α} {env : Env} {r : EStateM.Result Stop Env α}
    (hlasts : ∀ {n m}, n ≤ m → Lasts (run n) (run m)) {n : Nat} (h : run n env = r)
    (hr : ∀ env', r ≠ .error .exhausted env') : Ends run env r := by
  refine ⟨hr, n, fun m hm => ?_⟩
  rcases hlasts hm env with ⟨env', hout⟩ | heq
  · exact absurd (h.symm.trans hout) (hr env')
  · exact heq.trans h

end Rill.Eval
