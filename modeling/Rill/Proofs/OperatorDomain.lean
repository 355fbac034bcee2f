import Rill.Proofs.CompoundAssignment

/-!
# What operators are defined on

Each kind of value supports some operators (`ValueKind.supports`), and an operator that divides
refuses a zero of a kind that has one (`Value.isZero`). The two tables decide what a binary operator
gives of two values of one kind : a value, whose kind is known beforehand, a division by zero, or
the fault that the kind does not support the operator (`Value.Answers`). There is one lemma for each
kind. Values of different kinds are refused by every operator that does not assign, and assignments
are no operations on values at all.

So an assignment `x op= e` that succeeds stores a value of the kind that `x` has when the operator
is applied. This is the kind that `x` had before, unless the evaluation of `e` has changed it.
-/

namespace Rill

/-! ## Tables -/

/-- Whether an operator divides. -/
def BinaryOp.divides : BinaryOp → Bool
  | .arith .div | .arith .mod => true
  | _ => false

/-- The kind of what an operator gives of operands of a kind. -/
def BinaryOp.resultKind : BinaryOp → ValueKind → ValueKind
  | .arith _, kind => kind
  | _, _ => .bool

/-- The operators that are defined on values of a kind, some of them not for every divisor. -/
def ValueKind.supports : ValueKind → BinaryOp → Bool
  | .null, .compare c => c = .eq || c = .ne
  | .bool, .arith op => op ≠ .mod
  | .bool, .logical _ => true
  | .int, .arith _ | .float, .arith _ => true
  | .string, .arith op => op = .add
  | .bool, .compare _ | .int, .compare _ | .float, .compare _ | .char, .compare _ | .string,
      .compare _ => true
  | _, _ => false

namespace Value

/-- What cannot be divided by. Doubles can be divided by every double. -/
def isZero : Value → Bool
  | .int i => i = 0
  | .bool b => !b
  | _ => false

/-- What an operator gives of two values of one kind. -/
inductive Answers (op : BinaryOp) (a b : Value) : Except RuntimeFault Value → Prop
  | value {v : Value} (hsupports : a.kind.supports op = true)
      (hzero : (op.divides && b.isZero) = false) (hkind : v.kind = op.resultKind a.kind) :
      Answers op a b (.ok v)
  | divisionByZero (hsupports : a.kind.supports op = true)
      (hzero : (op.divides && b.isZero) = true) :
      Answers op a b (.error .divisionByZero)
  | unsupported (hsupports : a.kind.supports op = false) :
      Answers op a b (.error (.unsupportedOperator op.text a.kind))

/-! The three answers exclude each other. -/

namespace Answers

variable {op : BinaryOp} {a b : Value} {r : Except RuntimeFault Value} (h : Answers op a b r)

include h

/-- An operator gives a value just where it is defined and does not divide by zero. -/
theorem exists_ok_iff :
    (∃ v, r = .ok v) ↔ a.kind.supports op = true ∧ ¬(op.divides = true ∧ b.isZero = true) := by
  cases h <;> simp_all

/-- A division by zero is reported just where the operator is defined and divides by zero. -/
theorem divisionByZero_iff :
    r = .error .divisionByZero ↔
    a.kind.supports op = true ∧ op.divides = true ∧ b.isZero = true := by
  cases h <;> simp_all

/-- An operator is reported as unsupported just where it is not defined. -/
theorem unsupported_iff :
    r = .error (.unsupportedOperator op.text a.kind) ↔ a.kind.supports op = false := by
  cases h <;> simp_all

end Answers

/-! ## Kinds -/

section

variable {op : BinaryOp} (hop : op.isAssignment = false)

include hop

theorem answers_null : Answers op .null .null (nullBinary op) := by
  cases op with
  | compare c =>
    cases c with
    | eq | ne => exact .value rfl rfl rfl
    | _ => exact .unsupported rfl
  | arith | logical => exact .unsupported rfl
  | assign | compound => cases hop

theorem answers_bool (a b : Bool) : Answers op (.bool a) (.bool b) (boolBinary op a b) := by
  cases op with
  | arith op =>
    cases op with
    | div =>
      cases b with
      | true => exact .value rfl rfl rfl
      | false => exact .divisionByZero rfl rfl
    | mod => exact .unsupported rfl
    | add | sub | mul => exact .value rfl rfl rfl
  | compare | logical => exact .value rfl rfl rfl
  | assign | compound => cases hop

theorem answers_int (a b : Int64) : Answers op (.int a) (.int b) (intBinary op a b) := by
  cases op with
  | arith op =>
    cases op with
    | div | mod =>
      simp only [intBinary, intArith]
      split
      next hzero => exact .divisionByZero rfl (by simp [BinaryOp.divides, isZero, hzero])
      next hzero => exact .value rfl (by simp [BinaryOp.divides, isZero, hzero]) rfl
    | add | sub | mul => exact .value rfl rfl rfl
  | compare => exact .value rfl rfl rfl
  | logical => exact .unsupported rfl
  | assign | compound => cases hop

theorem answers_float (a b : Float) : Answers op (.float a) (.float b) (floatBinary op a b) := by
  cases op with
  | arith | compare => exact .value rfl (by simp [isZero]) rfl
  | logical => exact .unsupported rfl
  | assign | compound => cases hop

theorem answers_char (a b : Char) : Answers op (.char a) (.char b) (charBinary op a b) := by
  cases op with
  | compare => exact .value rfl rfl rfl
  | arith | logical => exact .unsupported rfl
  | assign | compound => cases hop

theorem answers_string (a b : String) :
    Answers op (.string a) (.string b) (stringBinary op a b) := by
  cases op with
  | arith op =>
    cases op with
    | add => exact .value rfl rfl rfl
    | _ => exact .unsupported rfl
  | compare => exact .value rfl rfl rfl
  | logical => exact .unsupported rfl
  | assign | compound => cases hop

/-- Operands of one kind go to the operations of that kind. -/
theorem answers_binary {a b : Value} (h : a.kind = b.kind) : Answers op a b (binary op a b) := by
  have hnot : ¬op.isAssignment = true := by simp [hop]
  unfold binary
  rw [if_neg hnot]
  cases a <;> cases b <;> cases h
  case null => exact answers_null hop
  case bool a b => exact answers_bool hop a b
  case int a b => exact answers_int hop a b
  case float a b => exact answers_float hop a b
  case char a b => exact answers_char hop a b
  case string a b => exact answers_string hop a b
  case function => exact .unsupported (by cases op <;> rfl)

/-- Operands of different kinds are refused by every operator. -/
theorem binary_of_kind_ne {a b : Value} (h : a.kind ≠ b.kind) :
    binary op a b = .error (.differentTypes op.text a.kind b.kind) := by
  have hnot : ¬op.isAssignment = true := by simp [hop]
  unfold binary
  rw [if_neg hnot]
  cases a <;> cases b <;> first | exact absurd rfl h | rfl

end

/-- An assignment is no operator on values. -/
theorem binary_of_isAssignment {op : BinaryOp} (hop : op.isAssignment = true) (a b : Value) :
    binary op a b = .error (.unsupportedOperator op.text a.kind) := if_pos hop

/-- An operator that gives a value gives one of the kind that is known beforehand. -/
theorem kind_eq_of_binary {op : BinaryOp} {a b v : Value} (h : binary op a b = .ok v) :
    v.kind = op.resultKind a.kind := by
  cases hop : op.isAssignment with
  | true =>
    rw [binary_of_isAssignment hop] at h
    cases h
  | false =>
    by_cases hkind : a.kind = b.kind
    · have hanswers := answers_binary hop hkind
      rw [h] at hanswers
      cases hanswers with
      | value _ _ hv => exact hv
    · rw [binary_of_kind_ne hop hkind] at h
      cases h

end Value

/-! ## Assignments -/

namespace Eval

/-- What a compound assignment has done that gives a value. -/
theorem ok_of_compound {n : Nat} {op : Arith} {lhs e : Expr} {range : Range} {env last : Env}
    {v : Value} (h : expr (n + 1) (.binary (.compound op) lhs e range) env = .ok v last) :
    ∃ ident w mid now, lhs.ident? = some ident ∧ expr n e env = .ok w mid ∧
      mid.stack.find? ident.name = some ⟨.var, now⟩ ∧ Value.binary (.arith op) now w = .ok v ∧
      last = mid.assigned ident.name v := by
  simp only [expr] at h
  obtain ⟨w, mid, he, hrest⟩ := ok_of_bind h
  obtain ⟨⟨name, now⟩, mid', htarget, hrest⟩ := ok_of_bind hrest
  obtain ⟨rfl, ⟨ident, hident, rfl⟩, hnow⟩ := ok_of_target htarget
  refine ⟨ident, w, mid', now, hident, he, hnow, ?_⟩
  cases hnew : Value.binary (.arith op) now w with
  | error fault =>
    rw [hnew] at hrest
    cases hrest
  | ok new =>
    rw [hnew] at hrest
    cases hrest
    exact ⟨rfl, rfl⟩

/-- Every binary operator is defined or refused, by kind. An assignment is refused as not supported.
Any other operator is refused for different types if and only if the kinds of its operands differ.
On operands of one kind it gives a value if and only if the kind supports it and it does not divide
by a zero, and then the kind of the value is that of the operands for arithmetic and `bool` for
comparisons and logical operators; it divides by zero if and only if it is supported and divides by
a zero; and it is not supported otherwise.

A compound assignment that succeeds stores a value of the kind that its variable has when the right
side has been evaluated. If the right side calls nothing and does not write to the variable, that is
the kind, and even the value, that the variable had before. -/
theorem operators_by_kind (op : BinaryOp) (a b : Value) :
    (op.isAssignment = true → Value.binary op a b = .error (.unsupportedOperator op.text a.kind)) ∧
    (op.isAssignment = false →
      ((∃ text kind kind', Value.binary op a b = .error (.differentTypes text kind kind')) ↔
        a.kind ≠ b.kind) ∧
      (a.kind ≠ b.kind → Value.binary op a b = .error (.differentTypes op.text a.kind b.kind)) ∧
      (a.kind = b.kind →
        ((∃ v, Value.binary op a b = .ok v) ↔
          a.kind.supports op = true ∧ ¬(op.divides = true ∧ b.isZero = true)) ∧
        (∀ v, Value.binary op a b = .ok v → v.kind = op.resultKind a.kind) ∧
        (Value.binary op a b = .error .divisionByZero ↔
          a.kind.supports op = true ∧ op.divides = true ∧ b.isZero = true) ∧
        (Value.binary op a b = .error (.unsupportedOperator op.text a.kind) ↔
          a.kind.supports op = false))) ∧
    ∀ n op lhs e range env v last, expr n (.binary (.compound op) lhs e range) env = .ok v last →
      ∃ ident old w mid now, lhs.ident? = some ident ∧
        env.stack.find? ident.name = some ⟨.var, old⟩ ∧
        Ends (expr · e) env (.ok w mid) ∧ mid.stack.find? ident.name = some ⟨.var, now⟩ ∧
        last.stack.find? ident.name = some ⟨.var, v⟩ ∧ v.kind = now.kind ∧
        (e.spares ident.name = true → now = old) := by
  refine ⟨fun hop => Value.binary_of_isAssignment hop a b, fun hop => ?_, ?_⟩
  · refine ⟨⟨?_, ?_⟩, Value.binary_of_kind_ne hop, fun hkind => ?_⟩
    · rintro ⟨text, kind, kind', hbinary⟩ heq
      have hanswers := Value.answers_binary hop heq
      rw [hbinary] at hanswers
      cases hanswers
    · exact fun hkind => ⟨_, _, _, Value.binary_of_kind_ne hop hkind⟩
    · have hanswers := Value.answers_binary hop hkind
      exact ⟨hanswers.exists_ok_iff, fun v => Value.kind_eq_of_binary, hanswers.divisionByZero_iff,
        hanswers.unsupported_iff⟩
  · intro n op lhs e range env v last hrun
    cases n with
    | zero => cases hrun
    | succ n =>
      obtain ⟨ident, w, mid, now, hident, he, hnow, hbinary, rfl⟩ := ok_of_compound hrun
      have hnames := ((leaves_perform n (.expr e)).grown he).stack.names_eq
      obtain ⟨old, hold⟩ := Stack.exists_find?_of_names_eq hnames.symm hnow
      refine ⟨ident, old, w, mid, now, hident, hold, ends_of_ok he, hnow,
        Stack.find?_set hnow v, Value.kind_eq_of_binary hbinary, fun hspares => ?_⟩
      rw [Stack.find?_eq_head?, spares_expr n hspares env w mid he, ← Stack.find?_eq_head?,
        hold] at hnow
      cases hnow
      rfl

/-- The divisor decides, not the dividend, and a string has one arithmetic operator. The right side
of an assignment steps another variable. -/
theorem operators_by_kind_stepping :
    let x : Expr := .name ⟨"x", .unknown⟩
    let y : Expr := .unary (.post .down) (.name ⟨"y", .unknown⟩) .unknown
    let env (a b : Int64) : Env :=
      { stack := { bottom := ⟨[("x", ⟨.var, .int a⟩), ("y", ⟨.var, .int b⟩)]⟩ } }
    Value.binary (.arith .mod) (.int 7) (.int 0) = .error .divisionByZero ∧
      (∃ v, Value.binary (.arith .div) (.bool false) (.bool true) = .ok v ∧ v.kind = .bool) ∧
      Value.binary (.arith .mul) (.string "a") (.string "b") =
        .error (.unsupportedOperator "*" .string) ∧
      Value.binary (.compare .eq) .null (.int 0) = .error (.differentTypes "==" .null .int) ∧
      Value.binary (.compound .add) (.int 1) (.int 2) = .error (.unsupportedOperator "+=" .int) ∧
      y.spares "x" = true ∧
        expr 9 (.binary (.compound .div) x y .unknown) (env 7 2) = .ok (.int 3) (env 3 1) ∧
      ∃ old, (env 7 2).stack.find? "x" = some ⟨.var, old⟩ ∧ (Value.int 3).kind = old.kind := by
  intro x y env
  have hplain := fun op a b => (operators_by_kind op a b).2.1
  have hvalue : ∃ v, Value.binary (.arith .div) (.bool false) (.bool true) = .ok v :=
    ((hplain (.arith .div) (.bool false) (.bool true) rfl).2.2 rfl).1.2 (by decide)
  obtain ⟨v, hv⟩ := hvalue
  have hrun : expr 9 (.binary (.compound .div) x y .unknown) (env 7 2) = .ok (.int 3) (env 3 1) :=
    rfl
  refine ⟨?_, ⟨v, hv, ?_⟩, ?_, ?_, ?_, rfl, hrun, ?_⟩
  · exact ((hplain (.arith .mod) (.int 7) (.int 0) rfl).2.2 rfl).2.2.1.2 (by decide)
  · exact ((hplain (.arith .div) (.bool false) (.bool true) rfl).2.2 rfl).2.1 v hv
  · exact ((hplain (.arith .mul) (.string "a") (.string "b") rfl).2.2 rfl).2.2.2.2 rfl
  · exact (hplain (.compare .eq) .null (.int 0) rfl).2.1 (by decide)
  · exact (operators_by_kind (.compound .add) (.int 1) (.int 2)).1 rfl
  · obtain ⟨ident, old, w, mid, now, hident, hold, -, -, -, hkind, hspared⟩ :=
      (operators_by_kind (.arith .div) (.int 7) (.int 2)).2.2 _ _ _ _ _ _ _ _ hrun
    cases hident
    obtain rfl := hspared rfl
    exact ⟨now, hold, hkind⟩

/-- A right side that assigns a value of another kind to the variable : `x += (x = true)` stores a
truth value in a variable that has held an integer. -/
theorem kind_changed :
    let x : Expr := .name ⟨"x", .unknown⟩
    let e : Expr := .binary .assign x (.literal (.bool true) .unknown) .unknown
    let env (v : Value) : Env := { stack := { bottom := ⟨[("x", ⟨.var, v⟩)]⟩ } }
    Ends (expr · (.binary (.compound .add) x e .unknown)) (env (.int 1))
      (.ok (.bool true) (env (.bool true))) ∧
      (env (.int 1)).stack.find? "x" = some ⟨.var, .int 1⟩ ∧
      (Value.bool true).kind ≠ (Value.int 1).kind := by
  intro x e env
  have hrun : expr 9 (.binary (.compound .add) x e .unknown) (env (.int 1)) =
      .ok (.bool true) (env (.bool true)) := rfl
  exact ⟨ends_of_ok hrun, rfl, by decide⟩

end Eval

end Rill
