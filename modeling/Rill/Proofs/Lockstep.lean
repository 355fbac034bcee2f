import Rill.Proofs.CallLimit

/-!
# Runs side by side

A step is run from two environments that a relation holds of. The two runs stay side by side
(`Eval.Beside`) : they give the same and the relation holds of what they leave, or the second one is
cut off before. Where the single steps keep two runs side by side (`Eval.Lockstep`), all that is
composed of them does (`Eval.Composed.aligned`). A run that goes on alone only adds to its output,
so what is said of a cut has to hold on after that.
-/

namespace Rill.Eval

variable {α β : Type} {same : Env → Env → Prop} {cut : Env → Stop → Env → Prop}

/-- What two runs give : the same, in environments that `same` holds of; or else the second
run is cut off, and `cut` holds of what the first one leaves, of why the second one stops
and of what it leaves. -/
inductive Beside (same : Env → Env → Prop) (cut : Env → Stop → Env → Prop) :
    EStateM.Result Stop Env α → EStateM.Result Stop Env α → Prop
  | ok {a : α} {env env' : Env} (h : same env env') : Beside same cut (.ok a env) (.ok a env')
  | error {why : Stop} {env env' : Env} (h : same env env') :
      Beside same cut (.error why env) (.error why env')
  | cut {r : EStateM.Result Stop Env α} {why : Stop} {env' : Env} (h : cut (left r) why env') :
      Beside same cut r (.error why env')

/-- Runs of a step from environments that `same` holds of stay side by side. -/
def Aligned (same : Env → Env → Prop) (cut : Env → Stop → Env → Prop) (act : Eval α) : Prop :=
  ∀ {env env' : Env}, same env env' → Beside same cut (act env) (act env')

/-- The single steps keep runs side by side. A call looks at the depth and its limit,
and counts the depth. -/
structure Lockstep (same : Env → Env → Prop) (cut : Env → Stop → Env → Prop) : Prop where
  push : Aligned same cut push
  pop : Aligned same cut pop
  add : ∀ name symbol range, Aligned same cut (add name symbol range)
  find? : ∀ name, Aligned same cut (find? name)
  set : ∀ name value, Aligned same cut (set name value)
  print : ∀ args, Aligned same cut (print args)
  callDepth : ∀ {env env'}, same env env' → env'.callDepth = env.callDepth
  maxCallDepth : ∀ {env env'}, same env env' → env'.maxCallDepth = env.maxCallDepth
  atDepth : ∀ {env env'} (depth : Nat), same env env' →
    same { env with callDepth := depth } { env' with callDepth := depth }
  cut : ∀ {env why env'} (depth : Nat) {later : Env}, cut env why env' → env.Onward later →
    cut later why { env' with callDepth := depth }

namespace Lockstep

theorem cut_of_onward (h : Lockstep same cut) {env env' later : Env} {why : Stop}
    (hcut : cut env why env') (hlater : env.Onward later) : cut later why env' :=
  h.cut env'.callDepth hcut hlater

theorem bind (h : Lockstep same cut) {act : Eval α} {k : α → Eval β} (hk : ∀ a, Composed (k a))
    (hact : Aligned same cut act) (hnext : ∀ a, Aligned same cut (k a)) :
    Aligned same cut (act >>= k) := by
  intro env env' hsame
  have hbeside := hact hsame
  have honward : (left (act env)).Onward (left ((act >>= k) env)) :=
    Composed.onward_left_bind hk env
  cases hrun : act env' with
  | ok a last' =>
    rw [hrun] at hbeside
    rw [bind_of_ok hrun]
    cases hfirst : act env with
    | ok b last =>
      rw [hfirst] at hbeside
      rw [bind_of_ok hfirst]
      cases hbeside with
      | ok hlast => exact hnext a hlast
    | error why last =>
      rw [hfirst] at hbeside
      cases hbeside
  | error why last' =>
    rw [hrun] at hbeside
    rw [bind_of_error hrun]
    generalize hfirst : act env = first at hbeside honward
    cases hbeside with
    | error hlast =>
      rw [bind_of_error hfirst]
      exact .error hlast
    | cut hcut =>
      -- The first run goes on alone; what it leaves in the end is onward from where the
      -- second one was cut off.
      exact .cut (h.cut_of_onward hcut honward)

theorem calling (h : Lockstep same cut) (range : Range) {act : Eval α}
    (hact : Aligned same cut act) :
    Aligned same cut (calling range act) := by
  intro env env' hsame
  have hdepth := h.callDepth hsame
  have hmax := h.maxCallDepth hsame
  by_cases hlimit : env.maxCallDepth ≤ env.callDepth
  · rw [calling_of_limit range hlimit,
      calling_of_limit range (by rw [hmax, hdepth]; exact hlimit), hmax]
    exact .error hsame
  · have hlimit' : ¬env'.maxCallDepth ≤ env'.callDepth := by rw [hmax, hdepth]; exact hlimit
    have hdeeper : same env.deeper env'.deeper := by
      unfold Env.deeper
      rw [hdepth]
      exact h.atDepth _ hsame
    have hleft : left (Eval.calling range act env) = _ := left_calling range hlimit
    have hbeside := hact hdeeper
    generalize hrun : act env.deeper = r at hbeside hleft
    generalize hrun' : act env'.deeper = r' at hbeside
    cases hbeside with
    | ok hlast =>
      rw [calling_of_ok range hlimit hrun, calling_of_ok range hlimit' hrun', h.callDepth hlast]
      exact .ok (h.atDepth _ hlast)
    | error hlast =>
      rw [calling_of_error range hlimit hrun, calling_of_error range hlimit' hrun',
        h.callDepth hlast]
      exact .error (h.atDepth _ hlast)
    | cut hcut =>
      rw [calling_of_error range hlimit' hrun']
      refine .cut (h.cut _ hcut ?_)
      rw [hleft]
      exact ⟨.refl _, rfl⟩

end Lockstep

/-- What is composed of single steps keeps runs side by side if they do. -/
theorem Composed.aligned {act : Eval α} (hact : Composed act) (h : Lockstep same cut) :
    Aligned same cut act := by
  induction hact with
  | pure => exact fun hsame => .ok hsame
  | stop => exact fun hsame => .error hsame
  | bind _ hk ihact ihk => exact h.bind hk ihact ihk
  | push => exact h.push
  | pop => exact h.pop
  | add name symbol range => exact h.add name symbol range
  | find? name => exact h.find? name
  | set name value => exact h.set name value
  | print args => exact h.print args
  | calling range _ ih => exact h.calling range ih

end Rill.Eval
