import Rill.Proofs.HiddenFrame
import Rill.Proofs.MoreSteps

/-!
# Replacing one evaluation by another

Two statements may do the same although they are executed in different numbers of steps. To compare
them without counting, a step is taken for each number of steps at once (`Eval.Graded`), where more
steps keep an answer. Such families are put together like single steps, and a task may be replaced
by what it unfolds to (`Graded.Unfolds`), which is one step less.

`Eval.Agree` compares two families from related environments : whatever the one answers within `n`
steps, the other answers with enough steps, and the other way round. There is one rule for each way
of making families, so an argument follows the two statements and speaks of both directions at once;
loops are compared by induction on `n`. Families that agree for every `n` end alike
(`Eval.SameEnd`) : both never, both with the same value in the same environment, or both with an
error and the same output.
-/

namespace Rill.Eval

variable {α β : Type}

/-! ## Families of steps -/

/-- A step for each number of steps, where more steps keep an answer. -/
@[ext]
structure Graded (α : Type) where
  run : Nat → Eval α
  lasts : ∀ n, Lasts (run n) (run (n + 1))

namespace Graded

/-- The family of a task. -/
def of (t : Task) : Graded t.Answer := ⟨(t.perform ·), fun n => lasts_perform n.le_succ t⟩

/-- A step that needs no number of steps. -/
def steady (act : Eval α) : Graded α := ⟨fun _ => act, fun _ => .refl act⟩

/-- One family after the other. -/
def bind (g : Graded α) (k : α → Graded β) : Graded β :=
  ⟨fun n => g.run n >>= fun a => (k a).run n, fun n => (g.lasts n).bind fun a => (k a).lasts n⟩

instance : Monad Graded where
  pure a := steady (pure a)
  bind := bind

instance : LawfulMonad Graded := LawfulMonad.mk' Graded
  (fun g => Graded.ext (funext fun n => bind_pure (g.run n)))
  (fun a k => Graded.ext (funext fun n => pure_bind a fun a => (k a).run n))
  (fun g k k' =>
    Graded.ext (funext fun n => bind_assoc (g.run n) (fun a => (k a).run n) fun b => (k' b).run n))

/-- A family with one step more. -/
def later (g : Graded α) : Graded α := ⟨fun n => g.run (n + 1), fun n => g.lasts (n + 1)⟩

theorem run_ite {c : Prop} [Decidable c] (g g' : Graded α) (n : Nat) :
    (if c then g else g').run n = if c then g.run n else g'.run n := by
  split <;> rfl

/-- More steps keep an answer. -/
theorem lasts_le (g : Graded α) {n m : Nat} (h : n ≤ m) : Lasts (g.run n) (g.run m) := by
  induction h with
  | refl => exact .refl _
  | step _ ih => exact ih.trans (g.lasts _)

/-- The second family is the first with a step left out in some places. -/
structure Unfolds (g g' : Graded α) : Prop where
  down : ∀ n, Lasts (g.run n) (g'.run n)
  up : ∀ n, Lasts (g'.run n) (g.run (n + 1))

namespace Unfolds

variable {g g' : Graded α}

theorem refl (g : Graded α) : g.Unfolds g := ⟨fun n => .refl (g.run n), g.lasts⟩

/-- A family unfolds to the one with a step more. -/
theorem later (g : Graded α) : g.Unfolds g.later := ⟨g.lasts, fun n => .refl (g.run (n + 1))⟩

theorem bind {k k' : α → Graded β} (h : g.Unfolds g') (hk : ∀ a, (k a).Unfolds (k' a)) :
    (g >>= k).Unfolds (g' >>= k') :=
  ⟨fun n => (h.down n).bind fun a => (hk a).down n, fun n => (h.up n).bind fun a => (hk a).up n⟩

theorem before (h : g.Unfolds g') (k : α → Graded β) : (g >>= k).Unfolds (g' >>= k) :=
  h.bind fun a => .refl (k a)

end Unfolds

/-! What tasks unfold to. -/

/-- A missing expression gives `null`. -/
theorem unfolds_expr?_none : (of (.expr? none)).Unfolds (pure .null) := .later _

theorem unfolds_expr?_some (e : Expr) : (of (.expr? (some e))).Unfolds (of (.expr e)) := .later _

theorem unfolds_stmt?_none : (of (.stmt? none)).Unfolds (pure .normal) := .later _

theorem unfolds_stmt?_some (s : Stmt) : (of (.stmt? (some s))).Unfolds (of (.stmt s)) := .later _

theorem unfolds_stmts_nil : (of (.stmts [])).Unfolds (pure .normal) := .later _

/-- What comes after a statement that is followed by others. -/
def ontoStmts (rest : List Stmt) : Flow → Graded Flow
  | .normal => of (.stmts rest)
  | flow => pure flow

/-- Statements are executed one by one. -/
theorem unfolds_stmts_cons (s : Stmt) (rest : List Stmt) :
    (of (.stmts (s :: rest))).Unfolds (of (.stmt s) >>= ontoStmts rest) := by
  have hlater : (of (.stmts (s :: rest))).later = of (.stmt s) >>= ontoStmts rest := by
    refine Graded.ext (funext fun n => ?_)
    change stmts (n + 1) (s :: rest) = stmt n s >>= fun flow => (ontoStmts rest flow).run n
    rw [stmts]
    congr 1
    funext flow
    cases flow <;> rfl
  exact hlater ▸ .later _

/-- A family in a frame of its own. -/
def inFrame (g : Graded α) : Graded α := do
  steady push
  let a ← g
  steady pop
  return a

/-- A block is executed in a frame of its own. -/
theorem unfolds_block (b : Block) :
    (of (.stmt (.block b))).Unfolds (inFrame (of (.stmts b.stmts))) := .later _

/-- An expression as a statement is evaluated, and its value dropped. -/
theorem unfolds_exprStmt (e : Expr) (range : Range) :
    (of (.stmt (.expr e range))).Unfolds (do let _ ← of (.expr e); return .normal) := .later _

end Graded

/-! ## One direction -/

variable {same : RuntimeError → RuntimeError → Prop} {R R' R₁ R₂ : Env → Env → Prop}

/-- The second result answers to the first : with the same value in environments that `R`
holds of, or with an error that `same` holds of and the same output. If steps are used
up, nothing is asked. -/
inductive Matched (same : RuntimeError → RuntimeError → Prop) (R : Env → Env → Prop) :
    EStateM.Result Stop Env α → EStateM.Result Stop Env α → Prop
  | ok {a : α} {env env' : Env} (h : R env env') : Matched same R (.ok a env) (.ok a env')
  | failed {e e' : RuntimeError} {env env' : Env} (he : same e e') (h : env'.sink = env.sink) :
      Matched same R (.error (.failed e) env) (.error (.failed e') env')
  | exhausted {env : Env} {r : EStateM.Result Stop Env α} : Matched same R (.error .exhausted env) r

/-- An answer is still matched if the second step has more steps. -/
theorem Matched.raise {r : EStateM.Result Stop Env α} {act act' : Eval α} {env : Env}
    (h : Matched same R r (act env)) (hact : Lasts act act') : Matched same R r (act' env) := by
  generalize hrun : act env = s at h
  cases h with
  | ok h =>
    rw [hact.eq_of_ok hrun]
    exact .ok h
  | failed he h =>
    rw [hact.eq_of_failed hrun]
    exact .failed he h
  | exhausted => exact .exhausted

theorem Matched.refl (hsame : ∀ e, same e e) (hR : ∀ env, R env env)
    (r : EStateM.Result Stop Env α) :
    Matched same R r r := by
  cases r with
  | ok a env => exact .ok (hR env)
  | error why env =>
    cases why with
    | failed e => exact .failed (hsame e) rfl
    | exhausted => exact .exhausted

section

variable {extra : Frame} {k : Nat} {post : α → Prop} {r r' : EStateM.Result Stop Env α}

/-- Runs that do not notice a frame match. -/
theorem Overlooked.matched (h : Overlooked extra k post r r') (hsame : ∀ e, same e e) :
    Matched same (Env.Padded extra k) r r' := by
  cases h with
  | ok _ h => exact .ok h
  | error h =>
    rename_i why _ _
    cases why with
    | failed e => exact .failed (hsame e) h
    | exhausted => exact .exhausted

/-- Runs that do not notice a frame match the other way round too. -/
theorem Overlooked.matched_back (h : Overlooked extra k post r r') (hsame : ∀ e, same e e) :
    Matched same (flip (Env.Padded extra k)) r' r := by
  cases h with
  | ok _ h => exact .ok h
  | error h =>
    rename_i why _ _
    cases why with
    | failed e => exact .failed (hsame e) h.symm
    | exhausted => exact .exhausted

end

/-- What a step answers in an environment, a family answers with enough steps in a related one. -/
def Reached (same : RuntimeError → RuntimeError → Prop) (R R' : Env → Env → Prop) (act : Eval α)
    (g : Graded α) :
    Prop :=
  ∀ env env', R env env' → ∃ m, Matched same R' (act env) (g.run m env')

namespace Reached

variable {act : Eval α} {g : Graded α}

/-- Both parts are reached with some number of steps, and so together with the larger one. -/
theorem bind {post : α → Prop} {k : α → Eval β} {k' : α → Graded β} (h : Reached same R R₁ act g)
    (hpost : ∀ {a env env' m last last'}, act env = .ok a last →
      g.run m env' = .ok a last' → post a)
    (hk : ∀ a, post a → Reached same R₁ R₂ (k a) (k' a)) :
    Reached same R R₂ (act >>= k) (g >>= k') := by
  intro env env' hR
  obtain ⟨m, hm⟩ := h env env' hR
  generalize hrun : act env = r at hm
  generalize hrun' : g.run m env' = r' at hm
  cases hm with
  | ok hR₁ =>
    rename_i a last last'
    obtain ⟨m', hm'⟩ := hk a (hpost hrun hrun') last last' hR₁
    have hfirst : g.run (max m m') env' = .ok a last' :=
      (g.lasts_le (Nat.le_max_left m m')).eq_of_ok hrun'
    have hlast : (g >>= k').run (max m m') env' = (k' a).run (max m m') last' := bind_of_ok hfirst
    refine ⟨max m m', ?_⟩
    rw [bind_of_ok hrun, hlast]
    exact hm'.raise ((k' a).lasts_le (Nat.le_max_right m m'))
  | failed he hsink =>
    have hlast : (g >>= k').run m env' = _ := bind_of_error hrun'
    refine ⟨m, ?_⟩
    rw [bind_of_error hrun, hlast]
    exact .failed he hsink
  | exhausted =>
    refine ⟨m, ?_⟩
    rw [bind_of_error hrun]
    exact .exhausted

theorem of_steady {act' : Eval α}
    (h : ∀ env env', R env env' → Matched same R' (act env) (act' env')) :
    Reached same R R' act (.steady act') := fun env env' hR => ⟨0, h env env' hR⟩

/-- What an unfolded family answers, the family does. -/
theorem unfold {g' : Graded α} (h : Reached same R R' act g') (hg : g.Unfolds g') :
    Reached same R R' act g := by
  intro env env' hR
  obtain ⟨m, hm⟩ := h env env' hR
  exact ⟨m + 1, hm.raise (hg.up m)⟩

/-- What a step with fewer steps answers is reached as well. -/
theorem of_lasts {act' : Eval α} (h : Reached same R R' act' g) (hact : Lasts act act') :
    Reached same R R' act g := by
  intro env env' hR
  obtain ⟨m, hm⟩ := h env env' hR
  rcases hact env with ⟨last, hout⟩ | heq
  · exact ⟨m, hout ▸ .exhausted⟩
  · exact ⟨m, heq ▸ hm⟩

end Reached

/-! ## Both directions -/

/-- Whatever one of two families answers within `n` steps in related environments, the other
answers with enough steps. -/
structure Agree (same : RuntimeError → RuntimeError → Prop) (R R' : Env → Env → Prop) (n : Nat)
    (g g' : Graded α) :
    Prop where
  there : Reached same R R' (g.run n) g'
  back : Reached (flip same) (flip R) (flip R') (g'.run n) g

namespace Agree

variable {n : Nat} {g g' : Graded α}

theorem symm (h : Agree same R R' n g g') : Agree (flip same) (flip R) (flip R') n g' g :=
  ⟨h.back, h.there⟩

/-- What the first family never answers need not be looked at. -/
theorem bind_of (post : α → Prop) {k k' : α → Graded β} (h : Agree same R R₁ n g g')
    (hpost : ∀ {m env a last}, g.run m env = .ok a last → post a)
    (hk : ∀ a, post a → Agree same R₁ R₂ n (k a) (k' a)) :
    Agree same R R₂ n (g >>= k) (g' >>= k') :=
  ⟨h.there.bind (fun hrun _ => hpost hrun) fun a ha => (hk a ha).there,
    h.back.bind (fun _ hrun => hpost hrun) fun a ha => (hk a ha).back⟩

theorem bind {k k' : α → Graded β} (h : Agree same R R₁ n g g')
    (hk : ∀ a, Agree same R₁ R₂ n (k a) (k' a)) :
    Agree same R R₂ n (g >>= k) (g' >>= k') :=
  h.bind_of (fun _ => True) (fun _ => trivial) fun a _ => hk a

theorem pure (a : α) (h : ∀ env env', R env env' → R' env env') :
    Agree same R R' n (Pure.pure a) (Pure.pure a) :=
  ⟨.of_steady fun env env' hR => .ok (h env env' hR),
    .of_steady fun env env' hR => .ok (h env' env hR)⟩

/-! Steps may be left out on either side. -/

theorem unfold {g₁ : Graded α} (hg : g.Unfolds g₁) (h : Agree same R R' n g₁ g') :
    Agree same R R' n g g' :=
  ⟨h.there.of_lasts (hg.down n), h.back.unfold hg⟩

theorem unfold_right {g₁ : Graded α} (hg : g'.Unfolds g₁) (h : Agree same R R' n g g₁) :
    Agree same R R' n g g' :=
  (h.symm.unfold hg).symm

/-- A step that is left out may be put back, if one more is looked at. -/
theorem fold_right {g₁ : Graded α} (hg : g'.Unfolds g₁) (h : Agree same R R' (n + 1) g g') :
    Agree same R R' n g g₁ := by
  refine ⟨fun env env' hR => ?_, h.back.of_lasts (hg.up n)⟩
  obtain ⟨m, hm⟩ := h.there.of_lasts (g.lasts n) env env' hR
  exact ⟨m, hm.raise (hg.down m)⟩

theorem succ (h : Agree same R R' n g.later g'.later) : Agree same R R' (n + 1) g g' :=
  ⟨h.there.unfold (.later g'), h.back.unfold (.later g)⟩

/-- Without steps nothing is answered. -/
theorem zero (h : g.run 0 = exhausted) (h' : g'.run 0 = exhausted) : Agree same R R' 0 g g' := by
  constructor
  · intro env env' _
    rw [h]
    exact ⟨0, .exhausted⟩
  · intro env env' _
    rw [h']
    exact ⟨0, .exhausted⟩

theorem refl (hsame : ∀ e, same e e) (g : Graded α) : Agree same Eq Eq n g g := by
  constructor
  · rintro env _ rfl
    exact ⟨n, .refl hsame (fun _ => rfl) _⟩
  · rintro env _ rfl
    have hsame : ∀ e, flip same e e := hsame
    have hself : ∀ env, flip Eq env env := fun (env : Env) => Eq.refl env
    exact ⟨n, .refl hsame hself _⟩

/-- A step that the second family takes alone. -/
theorem skip_right {act : Eval β} {b : β} {k : β → Graded α}
    (hact : ∀ env env', R env env' → ∃ last, act env' = .ok b last ∧ R₁ env last)
    (h : Agree same R₁ R' n g (k b)) : Agree same R R' n g (.steady act >>= k) := by
  constructor
  · intro env env' hR
    obtain ⟨last, hrun, hR₁⟩ := hact env env' hR
    obtain ⟨m, hm⟩ := h.there env last hR₁
    have hlast : (Graded.steady act >>= k).run m env' = (k b).run m last := bind_of_ok hrun
    exact ⟨m, hlast ▸ hm⟩
  · intro env' env hR
    obtain ⟨last, hrun, hR₁⟩ := hact env env' hR
    obtain ⟨m, hm⟩ := h.back last env hR₁
    have hlast : (Graded.steady act >>= k).run n env' = (k b).run n last := bind_of_ok hrun
    exact ⟨m, hlast ▸ hm⟩

/-! A frame that the second family has more. -/

/-- A frame that is pushed in one family only lies at the top of its stack and is empty. -/
theorem skip_push (h : Agree same (Env.Padded {} 0) R' n g g') :
    Agree same Eq R' n g (Graded.steady push >>= fun _ => g') := by
  refine .skip_right (b := ()) ?_ h
  rintro env _ rfl
  exact ⟨env.opened, rfl, env.padded_opened⟩

/-- A frame that lies at the top of one stack only is popped there. -/
theorem skip_pop {extra : Frame} (h : Agree same Eq R' n g g') :
    Agree same (Env.Padded extra 0) R' n g (Graded.steady pop >>= fun _ => g') :=
  .skip_right (fun _ env' henv => ⟨env'.closed, rfl, henv.closed_eq.symm⟩) h

/-- A task does the same where there is one frame more, if it does not use the names in it. -/
theorem padded (hsame : ∀ e, same e e) {extra : Frame} {t : Task} {k : Nat}
    (ht : t.Allowed (.apart extra)) (hk : t.mayDeclare = true → 0 < k) :
    Agree same (Env.Padded extra k) (Env.Padded extra k) n (.of t) (.of t) :=
  ⟨fun env env' henv => ⟨n, (overlooks_perform n ht hk env env' henv).matched hsame⟩,
    fun env' env henv => ⟨n, (overlooks_perform n ht hk env env' henv).matched_back hsame⟩⟩

/-- A step that does not notice the frame. -/
theorem overlooked (hsame : ∀ e, same e e) {extra : Frame} {k k' : Nat} {post : α → Prop}
    {act : Eval α} (hact : Overlooks extra k k' post act) :
    Agree same (Env.Padded extra k) (Env.Padded extra k') n (.steady act) (.steady act) :=
  ⟨.of_steady fun env env' henv => (hact env env' henv).matched hsame,
    .of_steady fun env' env henv => (hact env env' henv).matched_back hsame⟩

/-- Both stop with an error. -/
theorem stop {e e' : RuntimeError} (he : same e e')
    (hR : ∀ env env', R env env' → env'.sink = env.sink) {k k' : β → Graded α} :
    Agree same R R' n (.steady (throw (.failed e)) >>= k) (.steady (throw (.failed e')) >>= k') :=
  ⟨fun env env' henv => ⟨0, .failed he (hR env env' henv)⟩,
    fun env env' henv => ⟨0, .failed he (hR env' env henv).symm⟩⟩

/-- What the first family keeps may be asked of its environment and is known of what it leaves. -/
theorem keeping (h : Agree same R R' n g g') {I : Env → Prop}
    (hkeeps : ∀ {m env a last}, I env → g.run m env = .ok a last → I last) :
    Agree same (fun env env' => R env env' ∧ I env) (fun env env' => R' env env' ∧ I env) n
      g g' := by
  constructor
  · rintro env env' ⟨hR, hI⟩
    obtain ⟨m, hm⟩ := h.there env env' hR
    refine ⟨m, ?_⟩
    generalize hrun : g.run n env = r at hm
    generalize g'.run m env' = r' at hm
    cases hm with
    | ok hR' => exact .ok ⟨hR', hkeeps hI hrun⟩
    | failed he hsink => exact .failed he hsink
    | exhausted => exact .exhausted
  · rintro env' env ⟨hR, hI⟩
    obtain ⟨m, hm⟩ := h.back env' env hR
    refine ⟨m, ?_⟩
    generalize g'.run n env' = r' at hm
    generalize hrun : g.run m env = r at hm
    cases hm with
    | ok hR' => exact .ok ⟨hR', hkeeps hI hrun⟩
    | failed he hsink => exact .failed he hsink
    | exhausted => exact .exhausted

end Agree

/-! ## How both end -/

/-- Two evaluations in an environment end alike. -/
inductive SameEnd (same : RuntimeError → RuntimeError → Prop) (run run' : Nat → Eval α)
    (env : Env) : Prop
  | never (h : ∀ n, ∃ last, run n env = .error .exhausted last)
      (h' : ∀ n, ∃ last, run' n env = .error .exhausted last)
  | value {a : α} {last : Env} (h : Ends run env (.ok a last)) (h' : Ends run' env (.ok a last))
  | failed {e e' : RuntimeError} {last last' : Env} (h : Ends run env (.error (.failed e) last))
      (h' : Ends run' env (.error (.failed e') last')) (he : same e e')
      (hsink : last'.sink = last.sink)

/-- A family ends as it does with some number of steps. -/
theorem Graded.ends {g : Graded α} {n : Nat} {env : Env} {r : EStateM.Result Stop Env α}
    (h : g.run n env = r) (hr : ∀ last, r ≠ .error .exhausted last) : Ends g.run env r :=
  ends_of_lasts (fun hle => g.lasts_le hle) h hr

/-- Families that agree in an environment end alike in it. -/
theorem Agree.sameEnd {g g' : Graded α} (h : ∀ n, Agree same R Eq n g g') {env : Env}
    (hR : R env env) :
    SameEnd same g.run g'.run env := by
  by_cases hnever : ∀ n, ∃ last, g.run n env = .error .exhausted last
  · refine .never hnever fun n => ?_
    -- An answer of the second family would be one of the first.
    obtain ⟨m, hm⟩ := (h n).back env env hR
    obtain ⟨last, hlast⟩ := hnever m
    rw [hlast] at hm
    generalize g'.run n env = r at hm
    cases hm with
    | exhausted => exact ⟨_, rfl⟩
  · obtain ⟨n, hn⟩ := Classical.not_forall.1 hnever
    obtain ⟨m, hm⟩ := (h n).there env env hR
    generalize hrun : g.run n env = r at hm hn
    generalize hrun' : g'.run m env = r' at hm
    cases hm with
    | ok heq =>
      obtain rfl := heq
      exact .value (Graded.ends hrun (by simp)) (Graded.ends hrun' (by simp))
    | failed he hsink =>
      exact .failed (Graded.ends hrun (by simp)) (Graded.ends hrun' (by simp)) he hsink
    | exhausted => exact absurd ⟨_, rfl⟩ hn

end Rill.Eval
