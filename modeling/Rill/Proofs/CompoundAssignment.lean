import Rill.Proofs.SwitchChain

/-!
# Compound assignments

An assignment `x op= e` evaluates `e` and then reads `x`, while `x = x op e` reads `x` and then
evaluates `e`. Both store what the operator gives of the value that they have read and the value of
`e`, in the environment that `e` leaves (`Eval.store`); a fault of the operator is the same fault
in both. So they end alike if the evaluation of `e` gives `x` back as it was, which is so in
particular if `e` calls nothing and does not write to `x` (`Expr.spares`). An expression that
writes to `x` tells them apart.

An expression adds no names, so what `x` was bound as it is bound as afterwards.
-/

namespace Rill

/-! ## Kinds of symbols -/

/-- The names of a frame tell the kinds of its symbols. -/
theorem Frame.lookup_names (f : Frame) (x : String) :
    f.names.lookup x = (f.get? x).map (·.kind) := by
  simp only [names, get?]
  induction f.entries with
  | nil => rfl
  | cons entry rest ih =>
    obtain ⟨name, symbol⟩ := entry
    simp only [List.map_cons, List.lookup_cons]
    cases x == name with
    | true => rfl
    | false => exact ih

namespace Stack

variable {s s' : Stack} {x : String}

/-- The names of the frames tell the kinds of the symbols of a name. -/
theorem map_kind_bound (s : Stack) (x : String) :
    (s.bound x).map (·.kind) = s.names.filterMap (·.lookup x) := by
  simp only [bound, names, List.map_filterMap, List.filterMap_map]
  exact congrArg (List.filterMap · s.frames) (funext fun f => (f.lookup_names x).symm)

/-- What a name is bound as can be read off the names of the frames. -/
theorem exists_find?_of_names_eq (h : s'.names = s.names) {symbol : Symbol}
    (hx : s.find? x = some symbol) :
    ∃ value, s'.find? x = some ⟨symbol.kind, value⟩ := by
  have hkinds : (s'.find? x).map (·.kind) = some symbol.kind := by
    rw [find?_eq_head?, ← List.head?_map, map_kind_bound, h, ← map_kind_bound, List.head?_map,
      ← find?_eq_head?, hx]
    rfl
  obtain ⟨⟨kind, value⟩, hfind, rfl⟩ := Option.map_eq_some_iff.1 hkinds
  exact ⟨value, hfind⟩

/-- A name that is bound is found with the value that it is set to. -/
theorem find?_set {symbol : Symbol} (hx : s.find? x = some symbol) (v : Value) :
    ((s.set? x v).getD s).find? x = some ⟨symbol.kind, v⟩ := by
  rw [find?_eq_head?] at hx
  cases hset : s.set? x v with
  | none =>
    rw [bound_of_set?_eq_none hset] at hx
    cases hx
  | some s' =>
    rw [Option.getD_some, find?_eq_head?, bound_set? hset, if_pos rfl]
    cases hbound : s.bound x with
    | nil =>
      rw [hbound] at hx
      cases hx
    | cons first rest =>
      rw [hbound, List.head?_cons, Option.some.injEq] at hx
      rw [hx]
      rfl

end Stack

/-- An environment with the value of a name replaced. -/
def Env.assigned (env : Env) (x : String) (v : Value) : Env :=
  { env with stack := (env.stack.set? x v).getD env.stack }

/-! ## Expressions that spare a name -/

/-- An expression is not the given name. -/
def Expr.isOther (x : String) (e : Expr) : Bool := e.ident?.all (·.name != x)

/-- An expression calls nothing and does not write to a name. -/
def Expr.spares (x : String) : Expr → Bool
  | .literal .. | .name _ => true
  | .paren inner _ => inner.spares x
  | .unary op operand _ => if op.isStep then operand.isOther x else operand.spares x
  | .binary op lhs rhs _ =>
    (if op.isAssignment then lhs.isOther x else lhs.spares x) && rhs.spares x
  | .ternary c a b _ => c.spares x && a.spares x && b.spares x
  | .member object _ _ => object.spares x
  | .subscript object index _ => object.spares x && index.spares x
  | .call .. => false

namespace Eval

variable {α β : Type} {x : String}

/-- A step that leaves the symbols of a name as they are, if it finishes. -/
def Spares (x : String) (act : Eval α) : Prop :=
  ∀ env a env', act env = .ok a env' → env'.stack.bound x = env.stack.bound x

theorem still_condition (e : Expr) (v : Value) : Still (condition e v) := by
  unfold condition
  split
  · exact still_pure _
  · exact still_fail _ _

theorem still_logicalOperand (op : Logical) (e : Expr) (v : Value) :
    Still (logicalOperand op e v) := by
  unfold logicalOperand
  split
  · exact still_pure _
  · exact still_fail _ _

/-- A step that does not change the stack spares every name. -/
theorem Still.spares {act : Eval α} (h : Still act) : Spares x act :=
  fun env a env' hrun => congrArg (Stack.bound · x) (h env a env' hrun)

/-- Steps in sequence spare a name if each of them does. -/
theorem Spares.bind {act : Eval α} {k : α → Eval β} (h : Spares x act) (hk : ∀ a, Spares x (k a)) :
    Spares x (act >>= k) := by
  intro env b env' hrun
  obtain ⟨a, env₁, hact, hrest⟩ := ok_of_bind hrun
  exact (hk a env₁ b env' hrest).trans (h env a env₁ hact)

/-- To set another name spares a name. -/
theorem spares_set {name : String} (h : x ≠ name) (v : Value) : Spares x (set name v) := by
  intro env a env' hrun
  obtain ⟨-, rfl⟩ := EStateM.Result.ok.inj hrun
  change ((env.stack.set? name v).getD env.stack).bound x = _
  cases hset : env.stack.set? name v with
  | none => rfl
  | some stack => rw [Option.getD_some, Stack.bound_set? hset, if_neg h]

/-- An assignment or a step writes to the name that its target is. -/
theorem spares_update {target : Expr} (h : target.isOther x = true) (range : Range)
    (new : Value → Except RuntimeFault Value) (answer : Value → Value → Value) :
    Spares x (do
      let (name, old) ← Eval.target target
      let value ← located range (new old)
      set name value
      return answer old value) := by
  intro env a env' hrun
  obtain ⟨⟨name, old⟩, env₁, htarget, hrest⟩ := ok_of_bind hrun
  obtain ⟨rfl, ⟨ident, hident, rfl⟩, -⟩ := ok_of_target htarget
  have hname : ident.name ≠ x := by simpa [Expr.isOther, hident] using h
  refine Spares.bind (still_located range _).spares (fun value => ?_) env₁ a env' hrest
  exact (spares_set hname.symm value).bind fun _ => (still_pure _).spares

section

variable {n : Nat} (ih : ∀ e : Expr, e.spares x = true → Spares x (expr n e))

include ih

/-- A unary expression spares a name if its operand does and is not the name of a step. -/
theorem spares_unary {op : UnaryOp} {operand : Expr} {range : Range}
    (h : (Expr.unary op operand range).spares x = true) :
    Spares x (expr (n + 1) (.unary op operand range)) := by
  simp only [Expr.spares] at h
  simp only [expr]
  split at h
  next hstep =>
    rw [if_pos hstep]
    exact spares_update h range (·.step op) fun old new => if op.isPost then old else new
  next hstep =>
    rw [if_neg hstep]
    exact (ih operand h).bind fun v => (still_located range _).spares

/-- A binary expression spares a name if its operands do and the name is not assigned to. -/
theorem spares_binary {op : BinaryOp} {lhs rhs : Expr} {range : Range}
    (h : (Expr.binary op lhs rhs range).spares x = true) :
    Spares x (expr (n + 1) (.binary op lhs rhs range)) := by
  simp only [Expr.spares, Bool.and_eq_true] at h
  obtain ⟨hlhs, hrhs⟩ := h
  have hplain : lhs.spares x = true → ∀ op, Spares x
      (do
        let a ← expr n lhs
        let b ← expr n rhs
        located range (Value.binary op a b)) := fun hlhs op =>
    (ih lhs hlhs).bind fun a => (ih rhs hrhs).bind fun b => (still_located range _).spares
  cases op with
  | assign =>
    simp only [expr]
    exact (ih rhs hrhs).bind fun v => spares_update hlhs range (fun _ => .ok v) fun _ new => new
  | compound op =>
    simp only [expr]
    exact (ih rhs hrhs).bind fun v =>
      spares_update hlhs range (Value.binary (.arith op) · v) fun _ new => new
  | logical op =>
    simp only [expr]
    refine (ih lhs hlhs).bind fun v => (still_logicalOperand op lhs v).spares.bind fun a => ?_
    split
    · exact (still_pure _).spares
    · exact (ih rhs hrhs).bind fun w => (still_logicalOperand op rhs w).spares.bind fun b =>
        (still_pure _).spares
  | arith op => exact hplain hlhs (.arith op)
  | compare op => exact hplain hlhs (.compare op)

end

/-- An expression that spares a name leaves its symbols as they are. -/
theorem spares_expr (n : Nat) {e : Expr} (h : e.spares x = true) : Spares x (expr n e) := by
  induction n generalizing e with
  | zero => exact fun env a env' hrun => by cases hrun
  | succ n ih =>
    have ih : ∀ e : Expr, e.spares x = true → Spares x (expr n e) := fun _ => ih
    cases e with
    | literal value range => exact (still_pure _).spares
    | name ident => exact (still_lookup ident).spares
    | paren inner range => exact ih inner h
    | unary op operand range => exact spares_unary ih h
    | binary op lhs rhs range => exact spares_binary ih h
    | ternary c a b range =>
      simp only [Expr.spares, Bool.and_eq_true] at h
      simp only [expr]
      refine (ih c h.1.1).bind fun v => (still_condition c v).spares.bind fun holds => ?_
      split
      · exact ih a h.1.2
      · exact ih b h.2
    | member object field range =>
      simp only [expr]
      exact (ih object h).bind fun v => (still_located range _).spares
    | subscript object index range =>
      simp only [Expr.spares, Bool.and_eq_true] at h
      simp only [expr]
      exact (ih object h.1).bind fun a => (ih index h.2).bind fun b =>
        (still_located range _).spares
    | call callee args range => cases h

/-! ## The two forms -/

/-- Stores the result of an operation in a variable and gives it. -/
def store (x : String) (range : Range) (result : Except RuntimeFault Value) : Eval Value := do
  let new ← located range result
  set x new
  return new

/-- To store a result uses up no steps. -/
theorem store_ne_exhausted (range : Range) (result : Except RuntimeFault Value) (env last : Env) :
    store x range result env ≠ .error .exhausted last := by
  intro h
  cases result <;> cases h

variable {env env' : Env} {old v : Value}

/-- A variable is assigned to under its own name. -/
theorem target_of_find? {place : Range} (hx : env.stack.find? x = some ⟨.var, old⟩) :
    target (.name ⟨x, place⟩) env = .ok (x, old) env := by
  have hfind : find? x env = .ok (some ⟨.var, old⟩) env := congrArg (EStateM.Result.ok · env) hx
  exact bind_of_ok hfind

theorem lookup_of_find? {place : Range} {symbol : Symbol} (hx : env.stack.find? x = some symbol) :
    lookup ⟨x, place⟩ env = .ok symbol.value env := by
  have hfind : find? x env = .ok (some symbol) env := congrArg (EStateM.Result.ok · env) hx
  exact bind_of_ok hfind

/-- A name that an expression finds as a variable is still one when the expression has been
evaluated. -/
theorem exists_find?_of_expr {n : Nat} {e : Expr} (he : expr n e env = .ok v env')
    (hx : env.stack.find? x = some ⟨.var, old⟩) : ∃ now, env'.stack.find? x = some ⟨.var, now⟩ :=
  Stack.exists_find?_of_names_eq ((leaves_perform n (.expr e)).grown he).stack.names_eq hx

/-- The compound form reads the variable when the right side has been evaluated. -/
theorem expr_compound {n : Nat} {e : Expr} {now : Value} (he : expr n e env = .ok v env')
    (hnow : env'.stack.find? x = some ⟨.var, now⟩) (op : Arith) (place range : Range) :
    expr (n + 1) (.binary (.compound op) (.name ⟨x, place⟩) e range) env =
      store x range (Value.binary (.arith op) now v) env' := by
  simp only [expr]
  rw [bind_of_ok he, bind_of_ok (target_of_find? hnow)]
  rfl

/-- The plain form reads the variable first. -/
theorem expr_assignment {n : Nat} {e : Expr} {now : Value} (he : expr (n + 1) e env = .ok v env')
    (hx : env.stack.find? x = some ⟨.var, old⟩) (hnow : env'.stack.find? x = some ⟨.var, now⟩)
    (op : Arith) (place place' inner range : Range) :
    expr (n + 3)
      (.binary .assign (.name ⟨x, place⟩) (.binary (.arith op) (.name ⟨x, place'⟩) e inner) range)
      env =
      store x inner (Value.binary (.arith op) old v) env' := by
  have hread : expr (n + 1) (.name ⟨x, place'⟩) env = .ok old env := lookup_of_find? hx
  have hvalue : expr (n + 2) (.binary (.arith op) (.name ⟨x, place'⟩) e inner) env =
      located inner (Value.binary (.arith op) old v) env' := by
    simp only [expr] at hread ⊢
    rw [bind_of_ok hread, bind_of_ok he]
  simp only [expr] at hvalue ⊢
  cases hnew : Value.binary (.arith op) old v with
  | ok new =>
    rw [hnew] at hvalue
    rw [bind_of_ok hvalue, bind_of_ok (target_of_find? hnow)]
    rfl
  | error fault =>
    rw [hnew] at hvalue
    rw [bind_of_error hvalue]
    rfl

/-- Stores of one result end alike, wherever a fault is told to have happened. -/
theorem sameEnd_of_store {run run' : Nat → Eval Value} {range range' : Range}
    {result : Except RuntimeFault Value} (h : Ends run env (store x range result env'))
    (h' : Ends run' env (store x range' result env')) :
    SameEnd RuntimeError.SameFault run run' env := by
  cases result with
  | ok new => exact .value h h'
  | error fault => exact .failed h h' (fault.sameFault_at range range') rfl

/-- An evaluation ends in one way. -/
theorem Ends.unique {run : Nat → Eval α} {r r' : EStateM.Result Stop Env α} (h : Ends run env r)
    (h' : Ends run env r') : r = r' := by
  obtain ⟨-, n, hn⟩ := h
  obtain ⟨-, n', hn'⟩ := h'
  exact (hn _ (n.le_max_left n')).symm.trans (hn' _ (n.le_max_right n'))

/-- An expression that gives an answer with some steps ends with it. -/
theorem ends_of_expr {n : Nat} {e : Expr} {r : EStateM.Result Stop Env Value} (h : expr n e env = r)
    (hr : ∀ last, r ≠ .error .exhausted last) : Ends (expr · e) env r :=
  ends_of_lasts (fun hle => lasts_perform hle (.expr e)) h hr

theorem ends_of_ok {n : Nat} {e : Expr} (h : expr n e env = .ok v env') :
    Ends (expr · e) env (.ok v env') :=
  ends_of_expr h fun last hlast => by cases hlast

/-- Compound assignments and the assignments that they stand for. If `x` is bound as a variable and
`e` is evaluated without an error, `x` is still a variable. Then `x op= e` stores what the operator
gives of the value that `x` has after the evaluation of `e`, and `x = x op e` what it gives of the
value that `x` had before it. If the two values are the same, the two expressions give the same
value and leave the same environment, or both fail with the same fault and the same output. They are
the same if `e` calls nothing and does not write to `x`. -/
theorem compound_as_assignment {e : Expr} (op : Arith) (hx : env.stack.find? x = some ⟨.var, old⟩)
    (he : Ends (expr · e) env (.ok v env')) (place₁ place₂ place₃ range inner range' : Range) :
    let compound : Expr := .binary (.compound op) (.name ⟨x, place₁⟩) e range
    let plain : Expr :=
      .binary .assign (.name ⟨x, place₂⟩) (.binary (.arith op) (.name ⟨x, place₃⟩) e inner) range'
    ∃ now, env'.stack.find? x = some ⟨.var, now⟩ ∧
      Ends (expr · compound) env (store x range (Value.binary (.arith op) now v) env') ∧
      Ends (expr · plain) env (store x inner (Value.binary (.arith op) old v) env') ∧
      (now = old → SameEnd RuntimeError.SameFault (expr · compound) (expr · plain) env) ∧
      (e.spares x = true → now = old) := by
  intro compound plain
  obtain ⟨-, n, hruns⟩ := he
  have hrun : expr (n + 1) e env = .ok v env' := hruns (n + 1) n.le_succ
  obtain ⟨now, hnow⟩ := exists_find?_of_expr hrun hx
  have hcompound :
      Ends (expr · compound) env (store x range (Value.binary (.arith op) now v) env') :=
    ends_of_expr (expr_compound hrun hnow op place₁ range) (store_ne_exhausted range _ env')
  have hplain : Ends (expr · plain) env (store x inner (Value.binary (.arith op) old v) env') :=
    ends_of_expr (expr_assignment hrun hx hnow op place₂ place₃ inner range')
      (store_ne_exhausted inner _ env')
  refine ⟨now, hnow, hcompound, hplain, ?_, fun hspares => ?_⟩
  · rintro rfl
    exact sameEnd_of_store hcompound hplain
  · have hbound := spares_expr (n + 1) hspares env v env' hrun
    rw [Stack.find?_eq_head?, hbound, ← Stack.find?_eq_head?, hx] at hnow
    cases hnow
    rfl

/-- A right side that steps another variable, once with a value that can be multiplied and once
with one that cannot. -/
theorem compound_as_assignment_stepping :
    let x : Expr := .name ⟨"x", .unknown⟩
    let y : Expr := .unary (.post .up) (.name ⟨"y", .unknown⟩) .unknown
    let compound : Expr := .binary (.compound .mul) x y .unknown
    let plain : Expr := .binary .assign x (.binary (.arith .mul) x y .unknown) .unknown
    let env (a : Value) (b : Int64) : Env :=
      { stack := { bottom := ⟨[("x", ⟨.var, a⟩), ("y", ⟨.var, .int b⟩)]⟩ } }
    y.spares "x" = true ∧ expr 9 y (env (.int 4) 3) = .ok (.int 3) (env (.int 4) 4) ∧
      expr 9 compound (env (.int 4) 3) = .ok (.int 12) (env (.int 12) 4) ∧
      expr 9 plain (env (.int 4) 3) = .ok (.int 12) (env (.int 12) 4) ∧
      SameEnd RuntimeError.SameFault (expr · compound) (expr · plain) (env (.int 4) 3) ∧
      expr 9 compound (env .null 3) =
        .error (.failed ⟨.differentTypes "*" .null .int, .unknown⟩) (env .null 4) ∧
      SameEnd RuntimeError.SameFault (expr · compound) (expr · plain) (env .null 3) := by
  intro x y compound plain env
  have hends : ∀ a, Ends (expr · y) (env a 3) (.ok (.int 3) (env a 4)) := fun a =>
    ends_of_ok (show expr 9 y (env a 3) = .ok (.int 3) (env a 4) from rfl)
  have hsame : ∀ a, SameEnd RuntimeError.SameFault (expr · compound) (expr · plain) (env a 3) := by
    intro a
    have hx : (env a 3).stack.find? "x" = some ⟨.var, a⟩ := rfl
    obtain ⟨now, -, -, -, hsame, hspared⟩ :=
      compound_as_assignment .mul hx (hends a) .unknown .unknown .unknown .unknown .unknown .unknown
    exact hsame (hspared rfl)
  exact ⟨rfl, rfl, rfl, rfl, hsame _, rfl, hsame _⟩

/-- A right side that assigns to the variable : `x += (x = 5)` adds 5 to 5, and `x = x + (x = 5)`
adds 5 to the 1 that `x` was before. -/
theorem compound_reads_late :
    let x : Expr := .name ⟨"x", .unknown⟩
    let e : Expr := .binary .assign x (.literal (.int 5) .unknown) .unknown
    let compound : Expr := .binary (.compound .add) x e .unknown
    let plain : Expr := .binary .assign x (.binary (.arith .add) x e .unknown) .unknown
    let env (k : Int64) : Env := { stack := { bottom := ⟨[("x", ⟨.var, .int k⟩)]⟩ } }
    Ends (expr · e) (env 1) (.ok (.int 5) (env 5)) ∧
      Ends (expr · compound) (env 1) (.ok (.int 10) (env 10)) ∧
      Ends (expr · plain) (env 1) (.ok (.int 6) (env 6)) ∧
      ¬SameEnd (fun _ _ => True) (expr · compound) (expr · plain) (env 1) := by
  intro x e compound plain env
  have hcompound : Ends (expr · compound) (env 1) (.ok (.int 10) (env 10)) :=
    ends_of_ok (show expr 9 compound (env 1) = .ok (.int 10) (env 10) from rfl)
  have hplain : Ends (expr · plain) (env 1) (.ok (.int 6) (env 6)) :=
    ends_of_ok (show expr 9 plain (env 1) = .ok (.int 6) (env 6) from rfl)
  have he : Ends (expr · e) (env 1) (.ok (.int 5) (env 5)) :=
    ends_of_ok (show expr 9 e (env 1) = .ok (.int 5) (env 5) from rfl)
  refine ⟨he, hcompound, hplain, fun hsame => ?_⟩
  cases hsame with
  | never h =>
    obtain ⟨-, n, hn⟩ := hcompound
    obtain ⟨last, hlast⟩ := h n
    cases (hn n n.le_refl).symm.trans hlast
  | value h h' =>
    cases h.unique hcompound
    cases h'.unique hplain
  | failed h => cases h.unique hcompound

end Eval

end Rill
