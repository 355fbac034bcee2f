import Mathlib.Data.Int.ModEq
import Rill.Proofs.CompoundAssignment

/-!
# Arithmetic on integers

Integers have 64 bits. `Represents i z` says that `i` is the one of them that is congruent to `z`
modulo `2 ^ 64`. Sums, differences, products, negations and quotients represent the exact results,
whatever the operands represent, and the remainder is exact. So a law of exact arithmetic between
such operations holds of the operations of the language, where nothing has to be said about
overflow : the quotient times the divisor plus the remainder is the dividend also for the one
quotient that does not fit.

Steps up and down undo each other, as values and as changes of a variable.
-/

namespace Rill

/-! ## Setting a name back -/

namespace Frame

variable {f f' : Frame} {x : String} {v : Value} {symbol : Symbol}

/-- An entry that is set back is what it was. -/
theorem setIn?_back {entries entries' : List (String × Symbol)}
    (h : setIn? x v entries = some entries') (hx : entries.lookup x = some symbol) :
    setIn? x symbol.value entries' = some entries := by
  induction entries generalizing entries' with
  | nil => cases h
  | cons entry rest ih =>
    obtain ⟨name, other⟩ := entry
    simp only [setIn?, List.lookup_cons] at h hx
    cases hname : x == name with
    | true =>
      rw [hname] at h hx
      cases h
      cases hx
      simp [setIn?, hname]
    | false =>
      rw [hname] at h hx
      obtain ⟨rest', hrest, rfl⟩ := Option.map_eq_some_iff.1 h
      simp [setIn?, hname, ih hrest hx]

theorem set?_back (h : f.set? x v = some f') (hx : f.get? x = some symbol) :
    f'.set? x symbol.value = some f := by
  obtain ⟨entries, hentries, rfl⟩ := Option.map_eq_some_iff.1 h
  rw [set?, setIn?_back hentries hx]
  rfl

end Frame

namespace Stack

variable {s s' : Stack} {x : String} {v : Value} {symbol : Symbol}

/-- A name that is set back is bound as it was. -/
theorem setIn?_back {frames frames' : List Frame} (h : setIn? x v frames = some frames')
    (hx : findIn? x frames = some symbol) : setIn? x symbol.value frames' = some frames := by
  induction frames generalizing frames' with
  | nil => cases h
  | cons f rest ih =>
    simp only [setIn?] at h
    split at h
    next new hnew =>
      cases h
      have hget : f.get? x = some symbol := by
        cases hf : f.get? x with
        | some found => simpa [findIn?, hf] using hx
        | none => simp [Frame.set?_eq_none.2 hf] at hnew
      simp [setIn?, Frame.set?_back hnew hget]
    next hnone =>
      obtain ⟨rest', hrest, rfl⟩ := Option.map_eq_some_iff.1 h
      have hf := Frame.set?_eq_none.1 hnone
      simp only [findIn?, hf] at hx
      simp [setIn?, Frame.set?_eq_none.2 hf, ih hrest hx]

/-- A stack in which a name is set, and set back to the value that it had, is as it was. -/
theorem set?_back (h : s.set? x v = some s') (hx : s.find? x = some symbol) :
    s'.set? x symbol.value = some s := by
  obtain ⟨inner, bottom⟩ := s
  simp only [set?, find?] at h hx
  cases hinner : setIn? x v inner with
  | some inner' =>
    rw [hinner] at h
    cases h
    have hfind : findIn? x inner = some symbol := by
      cases hf : findIn? x inner with
      | some found => simpa [hf] using hx
      | none =>
        rw [findIn?_eq_head?, List.head?_eq_none_iff] at hf
        simp [setIn?_eq_none.2 hf] at hinner
    simp [set?, setIn?_back hinner hfind]
  | none =>
    rw [hinner] at h
    obtain ⟨f, hf, rfl⟩ := Option.map_eq_some_iff.1 h
    have hnone := setIn?_eq_none.1 hinner
    rw [findIn?_eq_head?, hnone] at hx
    simp [set?, setIn?_eq_none.2 hnone, Frame.set?_back hf hx]

end Stack

/-- A variable that is assigned its old value leaves the environment as it was. -/
theorem Env.assigned_back {env : Env} {x : String} {symbol : Symbol}
    (hx : env.stack.find? x = some symbol) (v : Value) :
    (env.assigned x v).assigned x symbol.value = env := by
  simp only [assigned]
  cases hset : env.stack.set? x v with
  | some s => rw [Option.getD_some, Stack.set?_back hset hx, Option.getD_some]
  | none =>
    rw [Stack.find?_eq_head?, Stack.bound_of_set?_eq_none hset] at hx
    cases hx

/-! ## Representatives -/

/-- The integer of 64 bits that is congruent to `z`. -/
structure Represents (i : Int64) (z : Int) : Prop where
  lower : -2 ^ 63 ≤ i.toInt
  upper : i.toInt < 2 ^ 63
  modEq : i.toInt ≡ z [ZMOD 2 ^ 64]

namespace Represents

variable {i j : Int64} {z w : Int}

/-- An integer represents all numbers that it is congruent to. -/
theorem of_modEq (h : i.toInt ≡ z [ZMOD 2 ^ 64]) : Represents i z := ⟨i.le_toInt, i.toInt_lt, h⟩

theorem self (i : Int64) : Represents i i.toInt := of_modEq (.refl _)

theorem of_eq_bmod (h : i.toInt = z.bmod (2 ^ 64)) : Represents i z := by
  refine of_modEq ?_
  rw [h]
  exact Int.bmod_emod

/-- There is one representative. -/
theorem unique (hi : Represents i z) (hj : Represents j z) : i = j := by
  have hmod : i.toInt % 2 ^ 64 = j.toInt % 2 ^ 64 := hi.modEq.trans hj.modEq.symm
  have hi' := hi.lower
  have hi'' := hi.upper
  have hj' := hj.lower
  have hj'' := hj.upper
  refine Int64.toInt_inj.1 ?_
  omega

/-- Sums wrap around. -/
theorem add (hi : Represents i z) (hj : Represents j w) : Represents (i + j) (z + w) :=
  of_modEq ((of_eq_bmod (Int64.toInt_add i j)).modEq.trans (hi.modEq.add hj.modEq))

theorem sub (hi : Represents i z) (hj : Represents j w) : Represents (i - j) (z - w) :=
  of_modEq ((of_eq_bmod (Int64.toInt_sub i j)).modEq.trans (hi.modEq.sub hj.modEq))

theorem mul (hi : Represents i z) (hj : Represents j w) : Represents (i * j) (z * w) :=
  of_modEq ((of_eq_bmod (Int64.toInt_mul i j)).modEq.trans (hi.modEq.mul hj.modEq))

/-- Negation wraps around, so the least integer is its own negation. -/
theorem neg (hi : Represents i z) : Represents (-i) (-z) :=
  of_modEq ((of_eq_bmod (Int64.toInt_neg i)).modEq.trans hi.modEq.neg)

end Represents

variable {a b : Int64}

/-- The quotient, truncated toward zero. -/
theorem represents_div (a b : Int64) : Represents (a / b) (a.toInt.tdiv b.toInt) :=
  .of_eq_bmod (Int64.toInt_div a b)

/-- The remainder is that of the division that is rounded towards zero. -/
theorem represents_mod (a b : Int64) : Represents (a % b) (a.toInt.tmod b.toInt) := by
  rw [← Int64.toInt_mod]
  exact .self _

/-- The law of division. Both sides represent the dividend. -/
theorem div_mul_add_mod (a b : Int64) : a / b * b + a % b = a := by
  have hsum := ((represents_div a b).mul (.self b)).add (represents_mod a b)
  rw [Int.tdiv_mul_add_tmod] at hsum
  exact hsum.unique (.self a)

/-- The remainder is smaller than the divisor. -/
theorem abs_mod_lt (hb : b ≠ 0) : |(a % b).toInt| < |b.toInt| := by
  have hpos : 0 < b.toInt.natAbs :=
    Int.natAbs_pos.2 fun h => hb (Int64.toInt_inj.1 (h.trans Int64.toInt_zero.symm))
  rw [Int64.toInt_mod, Int.abs_eq_natAbs, Int.abs_eq_natAbs, Int.natAbs_tmod]
  exact_mod_cast Nat.mod_lt _ hpos

/-- The remainder has the sign of the dividend. -/
theorem sign_mod (a b : Int64) : (a % b).toInt = 0 ∨ (a % b).toInt.sign = a.toInt.sign := by
  rw [Int64.toInt_mod, ← Int.sign_eq_zero_iff_zero, Int.sign_tmod]
  split
  · exact .inl rfl
  · exact .inr rfl

/-! ## Operations -/

namespace Value

/-- Division by another number than zero gives a quotient. -/
theorem binary_div (a : Int64) (hb : b ≠ 0) :
    binary (.arith .div) (.int a) (.int b) = .ok (.int (a / b)) := if_neg hb

theorem binary_mod (a : Int64) (hb : b ≠ 0) :
    binary (.arith .mod) (.int a) (.int b) = .ok (.int (a % b)) := if_neg hb

theorem binary_mul (a b : Int64) : binary (.arith .mul) (.int a) (.int b) = .ok (.int (a * b)) :=
  rfl

/-- Quotient times divisor plus remainder is the dividend. -/
theorem binary_sum (a b : Int64) :
    binary (.arith .add) (.int (a / b * b)) (.int (a % b)) = .ok (.int a) :=
  congrArg (fun i => Except.ok (int i)) (div_mul_add_mod a b)

/-- The integer one step up or down. -/
def stepped (op : UnaryOp) (i : Int64) : Int64 := if stepsUp op then i + 1 else i - 1

/-- A step adds or subtracts one, and wraps around. -/
theorem represents_stepped (op : UnaryOp) (i : Int64) :
    Represents (stepped op i) (if stepsUp op then i.toInt + 1 else i.toInt - 1) := by
  unfold stepped
  split
  · exact (Represents.self i).add (.self 1)
  · exact (Represents.self i).sub (.self 1)

/-- Steps in opposite directions undo each other, wherever they start. -/
theorem stepped_stepped {op op' : UnaryOp} (h : stepsUp op ≠ stepsUp op') (i : Int64) :
    stepped op' (stepped op i) = i := by
  unfold stepped
  cases hup : stepsUp op with
  | true =>
    have hdown : stepsUp op' = false := by simpa [hup] using h
    rw [if_pos rfl, hdown, if_neg Bool.false_ne_true, Int64.add_sub_cancel]
  | false =>
    have hup' : stepsUp op' = true := by simpa [hup] using h
    rw [if_neg Bool.false_ne_true, hup', if_pos rfl, Int64.sub_add_cancel]

end Value

namespace Eval

variable {env mid last : Env} {x : String}

/-- A step reads a variable and sets it. -/
theorem ends_step {op : UnaryOp} (hop : op.isStep = true) {old new : Value}
    (hx : env.stack.find? x = some ⟨.var, old⟩) (hnew : old.step op = .ok new)
    (place range : Range) :
    Ends (expr · (.unary op (.name ⟨x, place⟩) range)) env
      (.ok (if op.isPost then old else new) (env.assigned x new)) := by
  have hrun : expr 1 (.unary op (.name ⟨x, place⟩) range) env =
      .ok (if op.isPost then old else new) (env.assigned x new) := by
    simp only [expr, if_pos hop]
    rw [bind_of_ok (target_of_find? hx)]
    simp only [hnew]
    rfl
  exact ends_of_ok hrun

/-- A variable that is stepped in one direction and then in the other is as it was
before, and so is all else. -/
theorem ends_steps {op op' : UnaryOp} (hop : op.isStep = true) (hop' : op'.isStep = true)
    (h : Value.stepsUp op ≠ Value.stepsUp op') (hx : env.stack.find? x = some ⟨.var, .int a⟩)
    (place place' range range' : Range) :
    ∃ v v' mid, Ends (expr · (.unary op (.name ⟨x, place⟩) range)) env (.ok v mid) ∧
      mid.stack.find? x = some ⟨.var, .int (Value.stepped op a)⟩ ∧
      Ends (expr · (.unary op' (.name ⟨x, place'⟩) range')) mid (.ok v' env) := by
  have hmid : (env.assigned x (.int (Value.stepped op a))).stack.find? x =
      some ⟨.var, .int (Value.stepped op a)⟩ :=
    Stack.find?_set hx _
  have hback : (Value.int (Value.stepped op a)).step op' = .ok (.int a) :=
    congrArg (fun i => Except.ok (Value.int i)) (Value.stepped_stepped h a)
  have hends := ends_step hop' hmid hback place' range'
  rw [Env.assigned_back hx] at hends
  exact ⟨_, _, _, ends_step hop hx rfl place range, hmid, hends⟩

/-! ## Expressions -/

/-- An expression in parentheses ends as the one inside. -/
theorem Ends.paren {e : Expr} {v : Value} (h : Ends (expr · e) env (.ok v last)) (range : Range) :
    Ends (expr · (.paren e range)) env (.ok v last) := by
  obtain ⟨hr, n, hn⟩ := h
  have hrun : expr (n + 1) (.paren e range) env = .ok v last := hn n n.le_refl
  exact ends_of_expr hrun hr

/-- Operands are evaluated from left to right before the operator is applied. -/
theorem Ends.arith {op : Arith} {lhs rhs : Expr} {u v w : Value}
    (hlhs : Ends (expr · lhs) env (.ok u mid)) (hrhs : Ends (expr · rhs) mid (.ok v last))
    (hop : Value.binary (.arith op) u v = .ok w) (range : Range) :
    Ends (expr · (.binary (.arith op) lhs rhs range)) env (.ok w last) := by
  obtain ⟨-, n, hn⟩ := hlhs
  obtain ⟨-, m, hm⟩ := hrhs
  have hleft : expr (max n m) lhs env = .ok u mid := hn _ (n.le_max_left m)
  have hright : expr (max n m) rhs mid = .ok v last := hm _ (n.le_max_right m)
  have hrun : expr (max n m + 1) (.binary (.arith op) lhs rhs range) env = .ok w last := by
    simp only [expr]
    rw [bind_of_ok hleft, bind_of_ok hright, hop]
    rfl
  exact ends_of_ok hrun

/-- The expression `(x / y) * y + x % y`. -/
def divisionLaw (x y : Expr) (parens quotient product remainder range : Range) : Expr :=
  .binary (.arith .add)
    (.binary (.arith .mul) (.paren (.binary (.arith .div) x y quotient) parens) y product)
    (.binary (.arith .mod) x y remainder) range

/-- The law of division holds of the expression that states it. -/
theorem ends_divisionLaw {x y : Expr} (hx : Ends (expr · x) env (.ok (.int a) env))
    (hy : Ends (expr · y) env (.ok (.int b) env)) (hb : b ≠ 0)
    (parens quotient product remainder range : Range) :
    Ends (expr · (divisionLaw x y parens quotient product remainder range)) env
      (.ok (.int a) env) := by
  have hquotient := (hx.arith hy (Value.binary_div a hb) quotient).paren parens
  have hproduct := hquotient.arith hy (Value.binary_mul (a / b) b) product
  have hremainder := hx.arith hy (Value.binary_mod a hb) remainder
  exact hproduct.arith hremainder (Value.binary_sum a b) range

/-- Integers are exact modulo `2 ^ 64`. Sums, differences, products and negations of any integers
are given, and represent the exact results. For a divisor that is not zero the quotient represents
the exact one, truncated toward zero; the remainder is smaller than the divisor and zero or of the
sign of the dividend; and `(x / y) * y + x % y` is `x`, for the operations one after the other and
as an expression. The quotient of the least integer and `-1` is the least integer. Steps in opposite
directions, before or after their operand, undo each other, also as changes of a variable. -/
theorem integers_wrap (a b : Int64) :
    (∃ c, Value.binary (.arith .add) (.int a) (.int b) = .ok (.int c) ∧
      Represents c (a.toInt + b.toInt)) ∧
    (∃ c, Value.binary (.arith .sub) (.int a) (.int b) = .ok (.int c) ∧
      Represents c (a.toInt - b.toInt)) ∧
    (∃ c, Value.binary (.arith .mul) (.int a) (.int b) = .ok (.int c) ∧
      Represents c (a.toInt * b.toInt)) ∧
    (∃ c, Value.unary .minus (.int a) = .ok (.int c) ∧ Represents c (-a.toInt)) ∧
    (b ≠ 0 →
      ∃ q r p, Value.binary (.arith .div) (.int a) (.int b) = .ok (.int q) ∧
        Represents q (a.toInt.tdiv b.toInt) ∧
        Value.binary (.arith .mod) (.int a) (.int b) = .ok (.int r) ∧
        r.toInt = a.toInt.tmod b.toInt ∧
        |r.toInt| < |b.toInt| ∧ (r.toInt = 0 ∨ r.toInt.sign = a.toInt.sign) ∧
        Value.binary (.arith .mul) (.int q) (.int b) = .ok p ∧
          Value.binary (.arith .add) p (.int r) = .ok (.int a) ∧
        ∀ env x y parens quotient product remainder range, Ends (expr · x) env (.ok (.int a) env) →
          Ends (expr · y) env (.ok (.int b) env) →
          Ends (expr · (divisionLaw x y parens quotient product remainder range)) env
            (.ok (.int a) env)) ∧
    Value.binary (.arith .div) (.int Int64.minValue) (.int (-1)) = .ok (.int Int64.minValue) ∧
    ∀ op op' : UnaryOp, op.isStep = true → op'.isStep = true →
      Value.stepsUp op ≠ Value.stepsUp op' →
      ∃ c, Value.step op (.int a) = .ok (.int c) ∧
        Represents c (if Value.stepsUp op then a.toInt + 1 else a.toInt - 1) ∧
        Value.step op' (.int c) = .ok (.int a) ∧
        ∀ env x place place' range range', env.stack.find? x = some ⟨.var, .int a⟩ →
          ∃ v v' mid, Ends (expr · (.unary op (.name ⟨x, place⟩) range)) env (.ok v mid) ∧
            mid.stack.find? x = some ⟨.var, .int c⟩ ∧
            Ends (expr · (.unary op' (.name ⟨x, place'⟩) range')) mid (.ok v' env) := by
  have ha := Represents.self a
  have hb := Represents.self b
  refine ⟨⟨a + b, rfl, ha.add hb⟩, ⟨a - b, rfl, ha.sub hb⟩, ⟨a * b, rfl, ha.mul hb⟩,
    ⟨-a, rfl, ha.neg⟩, fun hzero => ?_, rfl, fun op op' hop hop' hopposite => ?_⟩
  · refine ⟨a / b, a % b, .int (a / b * b), Value.binary_div a hzero, represents_div a b,
      Value.binary_mod a hzero, Int64.toInt_mod a b, abs_mod_lt hzero, sign_mod a b, rfl,
      Value.binary_sum a b, ?_⟩
    intro env x y parens quotient product remainder range hx hy
    exact ends_divisionLaw hx hy hzero parens quotient product remainder range
  · refine ⟨Value.stepped op a, rfl, Value.represents_stepped op a, ?_, ?_⟩
    · exact congrArg (fun i => Except.ok (Value.int i)) (Value.stepped_stepped hopposite a)
    · intro env x place place' range range' hx
      exact ends_steps hop hop' hopposite hx place place' range range'

/-- The least integer, divided by a negative one, and stepped down to the greatest and up again. -/
theorem integers_wrap_least :
    let x : Expr := .name ⟨"x", .unknown⟩
    let seven : Expr := .literal (.int (-7)) .unknown
    let env (i : Int64) : Env := { stack := { bottom := ⟨[("x", ⟨.var, .int i⟩)]⟩ } }
    (-7 : Int64) ≠ 0 ∧ Represents (Int64.minValue / -7) (Int64.minValue.toInt.tdiv (-7)) ∧
      (Int64.minValue % -7).toInt.sign = Int64.minValue.toInt.sign ∧
      Ends (expr · (divisionLaw x seven .unknown .unknown .unknown .unknown .unknown))
        (env Int64.minValue) (.ok (.int Int64.minValue) (env Int64.minValue)) ∧
      Value.stepsUp (.post .down) ≠ Value.stepsUp (.pre .up) ∧
      ∃ v v' mid, Ends (expr · (.unary (.post .down) x .unknown)) (env Int64.minValue) (.ok v mid) ∧
        mid.stack.find? "x" = some ⟨.var, .int Int64.maxValue⟩ ∧
        Ends (expr · (.unary (.pre .up) x .unknown)) mid (.ok v' (env Int64.minValue)) := by
  intro x seven env
  obtain ⟨-, -, -, -, hdivision, -, hsteps⟩ := integers_wrap Int64.minValue (-7)
  obtain ⟨q, r, p, hq, hrepresents, hr, -, -, hsign, -, -, hlaw⟩ := hdivision (by decide)
  have hx : Ends (expr · x) (env Int64.minValue) (.ok (.int Int64.minValue) (env Int64.minValue)) :=
    ends_of_ok (show expr 1 x (env Int64.minValue) = _ from rfl)
  have hseven : Ends (expr · seven) (env Int64.minValue) (.ok (.int (-7)) (env Int64.minValue)) :=
    ends_of_ok (show expr 1 seven (env Int64.minValue) = _ from rfl)
  obtain ⟨c, hc, -, -, hback⟩ := hsteps (.post .down) (.pre .up) rfl rfl (by decide)
  cases hq
  cases hr
  cases hc
  refine ⟨by decide, hrepresents, hsign.resolve_left (by decide), ?_, by decide, ?_⟩
  · exact hlaw (env Int64.minValue) x seven .unknown .unknown .unknown .unknown .unknown hx hseven
  · exact hback (env Int64.minValue) "x" .unknown .unknown .unknown .unknown rfl

end Eval

end Rill
