import Rill.Proofs.Contract

/-!
# What tasks do under a contract

`Plan.Meets` says of a plan what a contract asks of it : it starts tasks that the contract allows,
it fails at nodes of the contract, and what it answers holds no other functions and no other jumps.
It also says two things that do not depend on the contract. The tasks that a task starts are smaller
than itself, unless it is a loop (`Task.Above`), and a task writes to a name only where it is an
assignment to that name, a step of it or a `return` (`Task.Writes`).

That the plans of tasks meet a contract which allows the tasks is shown here, once for all contracts
(`Task.meets_plan`). So every task, program and script keeps to a contract : it leaves an
environment with functions of the contract, and gives an answer or stops as the contract says
(`Eval.meets_perform`), and so do the tasks that are started on the way (`Task.meets_parts`).
-/

namespace Rill

/-! ## Sizes -/

theorem Block.sizeOf_stmts_lt (b : Block) : sizeOf b.stmts < sizeOf b := by
  obtain ⟨stmts, scope, range⟩ := b
  simp only [Block.mk.sizeOf_spec]
  omega

theorem Func.sizeOf_body_lt (f : Func) : sizeOf f.body.stmts < sizeOf f := by
  obtain ⟨id, ident, type, params, body, scope, ownScope, range⟩ := f
  have hbody := body.sizeOf_stmts_lt
  simp only [Func.mk.sizeOf_spec]
  omega

theorem Variable.sizeOf_init_lt (v : Variable) : sizeOf v.init < sizeOf v := by
  obtain ⟨id, ident, type, init, constant, scope, range⟩ := v
  simp only [Variable.mk.sizeOf_spec]
  omega

/-- The end of a list is no larger than the list. -/
theorem sizeOf_le_of_suffix {α : Type} [SizeOf α] {as rest : List α} (h : rest <:+ as) :
    sizeOf rest ≤ sizeOf as := by
  obtain ⟨before, rfl⟩ := h
  induction before with
  | nil => exact Nat.le_refl _
  | cons a before ih =>
    simp only [List.cons_append, List.cons.sizeOf_spec]
    omega

namespace Eval

namespace Task

/-- The size of what a task evaluates itself. -/
noncomputable def size : Task → Nat
  | .expr e => sizeOf e
  | .expr? e | .test e => sizeOf e
  | .exprs es => sizeOf es
  | .run f _ => sizeOf f
  | .stmt s => sizeOf s
  | .stmt? s => sizeOf s
  | .stmts ss | .entry _ ss _ => sizeOf ss
  | .declare _ d => sizeOf d
  | .call .. | .loop .. | .doLoop .. => 0

/-- Whether a task is a loop. -/
def isLoop : Task → Bool
  | .loop .. | .doLoop .. => true
  | _ => false

/-- The second task is smaller than the first one, unless that is a loop. -/
def Above (t t' : Task) : Prop := t.isLoop = false → t'.size < t.size

/-- A task itself writes to a name : an assignment or a step, or a `return`. -/
def Writes (name : String) : Task → Prop
  | .expr (.unary op operand _) => op.isStep = true ∧ ∃ i, operand.ident? = some i ∧ i.name = name
  | .expr (.binary .assign lhs _ _) | .expr (.binary (.compound _) lhs _ _) =>
    ∃ i, lhs.ident? = some i ∧ i.name = name
  | .stmt (.return ..) => name = resultName
  | _ => False

/-! ## Tasks and answers of a contract -/

/-- The outermost nodes of what a task evaluates itself. -/
def roots : Task → List Node
  | .expr e => [.expr e]
  | .expr? e | .test e => e.toList.map .expr
  | .exprs es => es.map .expr
  | .call .. | .run .. => []
  | .stmt s => [.stmt s]
  | .stmt? s => s.toList.map .stmt
  | .stmts ss => ss.map .stmt
  | .loop c step body => c.toList.map .expr ++ step.toList.map .expr ++ [.stmt body]
  | .doLoop body c => [.stmt body, .expr c]
  | .entry _ ss fallback => ss.map .stmt ++ fallback.toList.flatMap (·.map .stmt)
  | .declare _ d => [.decl d]

/-- What a task needs of a contract besides its nodes : functions that it calls or binds, a place
for a call, and that there are loops for a loop. -/
def Uses (c : Contract) : Task → Prop
  | .call f args range => c.func f ∧ (∀ v ∈ args, v.Funcs c.func) ∧ c.place range
  | .run f args => c.func f ∧ ∀ v ∈ args, v.Funcs c.func
  | .loop .. | .doLoop .. => c.loop
  | .declare allowed d => allowed = true → ∀ f, d = .func f → c.func f
  | _ => True

/-- A task that a contract allows. -/
structure Allowed (c : Contract) (t : Task) : Prop where
  nodes : ∀ n ∈ t.roots, n.All c.node
  uses : t.Uses c

/-- What a task answers with under a contract : functions of the contract, no jump but a free one of
its statements, and as the entry of a switch the end of its statements or what was found before. A
loop takes all jumps of its body. -/
def Answers (c : Contract) : (t : Task) → t.Answer → Prop
  | .expr _, v | .expr? _, v | .call .., v | .run .., v => Value.Funcs c.func v
  | .exprs _, vs => ∀ v ∈ vs, Value.Funcs c.func v
  | .stmt s, flow =>
    Flow.Meets c flow ∧ ∀ j ∈ Flow.jump? flow, s.hasFree j = true ∧ s.kind.isLoop = false
  | .stmt? s, flow => Flow.Meets c flow ∧ ∀ j ∈ Flow.jump? flow, Stmt.hasFree? j s = true
  | .stmts ss, flow => Flow.Meets c flow ∧ ∀ j ∈ Flow.jump? flow, Stmt.anyFree j ss = true
  | .loop .., flow | .doLoop .., flow => Flow.Meets c flow ∧ Flow.jump? flow = none
  | .entry _ ss fallback, found => ∀ rest ∈ found, rest <:+ ss ∨ rest ∈ fallback
  | .test _, _ | .declare .., _ => True

end Task

/-! ## Plans under a contract -/

/-- What a task or a program does itself : the tasks that it starts and the names that
it writes to. -/
structure Deeds where
  starts : Task → Prop
  writes : String → Prop

/-- What a task does itself. -/
def Task.deeds (t : Task) : Deeds := ⟨t.Above, (t.Writes ·)⟩

/-- What a contract asks of the last step of a task, for an answer as `post` says. -/
def Step.Meets (c : Contract) (d : Deeds) {gains : Bool} {α : Type} :
    Step gains α → (α → Prop) → Prop
  | .done a, post => post a
  | .fail e, _ => e.Meets c
  | .lookup ident, post => c.node (.expr (.name ident)) ∧ ∀ v, v.Funcs c.func → post v
  | .update e range new answer, post =>
    c.node (.expr e) ∧ c.place range ∧ (∀ i, e.ident? = some i → d.writes i.name) ∧
      ∀ old, old.Funcs c.func → (∀ fault, new old = .error fault → fault.jump? = none) ∧
        ∀ v, new old = .ok v → v.Funcs c.func ∧ post (answer old v)
  | .deliver v, post =>
    (∃ value range, c.node (.stmt (.return value range))) ∧ d.writes resultName ∧
      v.Funcs c.func ∧ post (.return v)
  | .bind _ symbol range, post => symbol.value.Funcs c.func ∧ c.place range ∧ post ()
  | .print _, post => post .null

/-- A task is started that a contract allows. -/
structure Deeds.Starts (c : Contract) (d : Deeds) (t : Task) : Prop where
  allowed : t.Allowed c
  starts : d.starts t

/-- What a contract asks of a plan, for an answer as `post` says. -/
def Plan.Meets (c : Contract) (d : Deeds) {i : Innermost} {α : Type} :
    Plan i α → (α → Prop) → Prop
  | .step s, post => s.Meets c d post
  | .task t _ k, post => d.Starts c t ∧ ∀ a, t.Answers c a → (k a).Meets c d post
  | .framed t k, post => d.Starts c t ∧ ∀ a, t.Answers c a → (k a).Meets c d post
  | .close a, post => post a
  | .call f args range, post =>
    (Task.run f args).Allowed c ∧ c.place range ∧ ∀ v, v.Funcs c.func → post v
  | .invoke f args, post =>
    (Task.run f args).Allowed c ∧ d.starts (.stmts f.body.stmts) ∧ ∀ v, v.Funcs c.func → post v
  | .main k, post => c.main ∧ ∀ f, c.func f → (k f).Meets c d post

namespace Task.Allowed

variable {c : Contract}

theorem expr {e : Expr} (h : (Node.expr e).All c.node) : (Task.expr e).Allowed c :=
  ⟨by simpa [roots] using h, trivial⟩

theorem expr? {e : Option Expr} (h : ∀ x ∈ e, (Node.expr x).All c.node) :
    (Task.expr? e).Allowed c := ⟨by simpa [roots] using h, trivial⟩

theorem exprs {es : List Expr} (h : ∀ e ∈ es, (Node.expr e).All c.node) :
    (Task.exprs es).Allowed c := ⟨by simpa [roots] using h, trivial⟩

theorem stmt {s : Stmt} (h : (Node.stmt s).All c.node) : (Task.stmt s).Allowed c :=
  ⟨by simpa [roots] using h, trivial⟩

theorem stmt? {s : Option Stmt} (h : ∀ x ∈ s, (Node.stmt x).All c.node) :
    (Task.stmt? s).Allowed c := ⟨by simpa [roots] using h, trivial⟩

theorem stmts {ss : List Stmt} (h : ∀ s ∈ ss, (Node.stmt s).All c.node) :
    (Task.stmts ss).Allowed c := ⟨by simpa [roots] using h, trivial⟩

/-- The entry of a switch may be sought among allowed statements, from a fallback that is
allowed. -/
theorem entry {subject : Value} {ss : List Stmt} {fallback : Option (List Stmt)}
    (hss : ∀ s ∈ ss, (Node.stmt s).All c.node)
    (hfallback : ∀ rest ∈ fallback, ∀ s ∈ rest, (Node.stmt s).All c.node) :
    (Task.entry subject ss fallback).Allowed c := by
  refine ⟨fun n hn => ?_, trivial⟩
  simp only [roots, List.mem_append, List.mem_map, List.mem_flatMap, Option.mem_toList] at hn
  rcases hn with ⟨s, hs, rfl⟩ | ⟨rest, hrest, s, hs, rfl⟩
  · exact hss s hs
  · exact hfallback rest hrest s hs

/-- A loop may be run under a contract that allows loops. -/
theorem loop {cond step : Option Expr} {body : Stmt} (hcond : ∀ x ∈ cond, (Node.expr x).All c.node)
    (hstep : ∀ x ∈ step, (Node.expr x).All c.node) (hbody : (Node.stmt body).All c.node)
    (h : c.loop) : (Task.loop cond step body).Allowed c := by
  refine ⟨fun n hn => ?_, h⟩
  simp only [roots, List.mem_append, List.mem_map, Option.mem_toList, List.mem_singleton] at hn
  rcases hn with (⟨x, hx, rfl⟩ | ⟨x, hx, rfl⟩) | rfl
  · exact hcond x hx
  · exact hstep x hx
  · exact hbody

end Task.Allowed

section

variable {α β : Type} {c : Contract} {d : Deeds} {gains : Bool} {i : Innermost} {post : α → Prop}

namespace Plan

/-- A plan may fail with a fault that is no stray jump, at a place of the contract. -/
theorem meets_fail {fault : RuntimeFault} {range : Range} (hplace : fault.hasPlace)
    (hjump : fault.jump? = none) (h : c.place range) :
    (fail fault range : Plan (.given gains) α).Meets c d post :=
  RuntimeError.meets_fault hplace (fun j hj => by rw [hjump] at hj; cases hj) h

/-- An operation on values gives no function, and fails at its place. -/
theorem meets_located {range : Range} {r : Except RuntimeFault Value}
    {k : Value → Plan (.given gains) α} (hr : Value.Plain r) (h : c.place range)
    (hk : ∀ v, v.Funcs c.func → (k v).Meets c d post) : (located range r k).Meets c d post := by
  cases r with
  | ok v => exact hk v (Value.funcs_of_kind (hr.value v rfl))
  | error fault => exact RuntimeFault.meets_at (hr.fault fault rfl) h

/-- A condition that is no `bool` is told at its place. -/
theorem meets_condition {e : Expr} {v : Value} {k : Bool → Plan (.given gains) α}
    (h : c.place e.range) (hk : ∀ holds, (k holds).Meets c d post) :
    (condition e v k).Meets c d post := by
  unfold condition
  cases v.bool? with
  | some holds => exact hk holds
  | none => exact meets_fail rfl rfl h

theorem meets_operand {op : Logical} {e : Expr} {v : Value} {k : Bool → Plan (.given gains) α}
    (h : c.place e.range) (hk : ∀ b, (k b).Meets c d post) : (operand op e v k).Meets c d post := by
  unfold operand
  cases v.bool? with
  | some b => exact hk b
  | none => exact meets_fail rfl rfl h

/-- A plan that is chosen by a test meets a contract if both choices do. -/
theorem meets_ite {p : Prop} [Decidable p] {plan other : Plan i α} (h : plan.Meets c d post)
    (hother : other.Meets c d post) : (if p then plan else other).Meets c d post := by
  split
  · exact h
  · exact hother

end Plan

end

/-! ## The plans of tasks -/

section

variable {c : Contract}

/-- The range of an allowed node is a place of the contract. -/
theorem place_of_all {n : Node} (h : n.All c.node) : c.place n.range := ⟨n, h.self, rfl⟩

theorem all_operand {op : UnaryOp} {operand : Expr} {range : Range}
    (h : (Node.expr (.unary op operand range)).All c.node) : (Node.expr operand).All c.node := by
  refine h.part ?_
  simp only [Node.parts, Part.ofExpr]
  split <;> simp

theorem all_stmts {b : Block} (h : (Node.stmt (.block b)).All c.node) :
    ∀ s ∈ b.stmts, (Node.stmt s).All c.node := fun s hs =>
  h.part (by simp [Node.parts, Part.ofStmt, hs])

/-- The body of a function of a contract. -/
theorem Task.allowed_body {f : Func} (hf : c.func f) : (Task.stmts f.body.stmts).Allowed c :=
  .stmts (all_stmts ((c.nodes f hf).part (by simp [Node.parts, Part.ofDecl, Part.stmt])))

/-- A task starts those that are allowed and smaller than itself. -/
theorem Deeds.Starts.of {t t' : Task} (h : t'.Allowed c) (hsize : t'.size < t.size) :
    t.deeds.Starts c t' := ⟨h, fun _ => hsize⟩

/-- The new value of a variable is the result of an operation on values. -/
theorem Step.meets_update {d : Deeds} {gains : Bool} {e : Expr} {range : Range}
    {new : Value → Except RuntimeFault Value} {answer : Value → Value → Value}
    (he : c.node (.expr e)) (hrange : c.place range)
    (hwrites : ∀ i, e.ident? = some i → d.writes i.name) (hnew : ∀ old, Value.Plain (new old))
    (hanswer : ∀ old v, old.Funcs c.func → v.Funcs c.func → (answer old v).Funcs c.func) :
    (Step.update e range new answer : Step gains Value).Meets c d (Value.Funcs c.func) := by
  refine ⟨he, hrange, hwrites, fun old hold => ⟨(hnew old).fault, fun v hv => ?_⟩⟩
  have hv : v.Funcs c.func := Value.funcs_of_kind ((hnew old).value v hv)
  exact ⟨hv, hanswer old v hold hv⟩

/-- The plan of a binary expression starts its operands, and writes to the left one if it is an
assignment. -/
theorem meets_binary {op : BinaryOp} {lhs rhs : Expr} {range : Range}
    (h : (Node.expr (.binary op lhs rhs range)).All c.node) :
    (exprPlan (.binary op lhs rhs range)).Meets c (Task.expr (.binary op lhs rhs range)).deeds
      (Value.Funcs c.func) := by
  have hplace : c.place range := place_of_all h
  have hlhs : (Node.expr lhs).All c.node := h.part (by simp [Node.parts, Part.ofExpr])
  have hrhs : (Node.expr rhs).All c.node := h.part (by simp [Node.parts, Part.ofExpr])
  have hleft : (Task.expr (.binary op lhs rhs range)).deeds.Starts c (.expr lhs) :=
    .of (.expr hlhs) (by simp +arith [Task.size])
  have hright : (Task.expr (.binary op lhs rhs range)).deeds.Starts c (.expr rhs) :=
    .of (.expr hrhs) (by simp +arith [Task.size])
  cases op with
  | assign =>
    refine ⟨hright, fun v hv => ⟨hlhs.self, hplace, fun i hi => ⟨i, hi, rfl⟩, fun old _ => ?_⟩⟩
    refine ⟨fun fault hfault => (by cases hfault), fun w hw => ?_⟩
    cases hw
    exact ⟨hv, hv⟩
  | compound op =>
    refine ⟨hright, fun v _ => Step.meets_update hlhs.self hplace (fun i hi => ⟨i, hi, rfl⟩) ?_ ?_⟩
    · exact fun old => Value.plain_binary (.arith op) old v
    · exact fun _ _ _ hnew => hnew
  | logical op =>
    refine ⟨hleft, fun v _ => Plan.meets_operand (place_of_all hlhs) fun a => ?_⟩
    refine Plan.meets_ite trivial ⟨hright, fun w _ => ?_⟩
    exact Plan.meets_operand (place_of_all hrhs) fun _ => trivial
  | arith op | compare op =>
    refine ⟨hleft, fun a _ => ⟨hright, fun b _ => ?_⟩⟩
    exact Plan.meets_located (Value.plain_binary _ a b) hplace fun _ hv => hv

/-- The plan of an allowed expression meets the contract. -/
theorem meets_exprPlan {e : Expr} (h : (Node.expr e).All c.node) :
    (exprPlan e).Meets c (Task.expr e).deeds (Value.Funcs c.func) := by
  have hplace : c.place e.range := place_of_all h
  cases e with
  | literal value range => exact Value.funcs_ofLiteral value
  | name ident => exact ⟨h.self, fun _ hv => hv⟩
  | paren inner range =>
    have hinner : (Node.expr inner).All c.node := h.part (by simp [Node.parts, Part.ofExpr])
    exact ⟨.of (.expr hinner) (by simp +arith [Task.size]), fun _ hv => hv⟩
  | unary op operand range =>
    have hoperand := all_operand h
    simp only [exprPlan]
    split
    next hop =>
      refine Step.meets_update hoperand.self hplace (fun i hi => ⟨hop, i, hi, rfl⟩) ?_ ?_
      · exact fun old => Value.plain_step op old
      · intro old new hold hnew
        split
        · exact hold
        · exact hnew
    next =>
      refine ⟨.of (.expr hoperand) (by simp +arith [Task.size]), fun v _ => ?_⟩
      exact Plan.meets_located (Value.plain_unary op v) hplace fun _ hv => hv
  | binary op lhs rhs range => exact meets_binary h
  | ternary cond a b range =>
    have hcond : (Node.expr cond).All c.node := h.part (by simp [Node.parts, Part.ofExpr])
    have ha : (Node.expr a).All c.node := h.part (by simp [Node.parts, Part.ofExpr])
    have hb : (Node.expr b).All c.node := h.part (by simp [Node.parts, Part.ofExpr])
    refine ⟨.of (.expr hcond) (by simp +arith [Task.size]), fun v _ => ?_⟩
    refine Plan.meets_condition (place_of_all hcond) fun holds => Plan.meets_ite ?_ ?_
    · exact ⟨.of (.expr ha) (by simp +arith [Task.size]), fun _ hv => hv⟩
    · exact ⟨.of (.expr hb) (by simp +arith [Task.size]), fun _ hv => hv⟩
  | member object field range =>
    have hobject : (Node.expr object).All c.node := h.part (by simp [Node.parts, Part.ofExpr])
    refine ⟨.of (.expr hobject) (by simp +arith [Task.size]), fun v _ => ?_⟩
    exact Plan.meets_located (Value.plain_member v field.name) hplace fun _ hv => hv
  | subscript object index range =>
    have hobject : (Node.expr object).All c.node := h.part (by simp [Node.parts, Part.ofExpr])
    have hindex : (Node.expr index).All c.node := h.part (by simp [Node.parts, Part.ofExpr])
    refine ⟨.of (.expr hobject) (by simp +arith [Task.size]), fun a _ => ?_⟩
    refine ⟨.of (.expr hindex) (by simp +arith [Task.size]), fun b _ => ?_⟩
    exact Plan.meets_located (Value.plain_subscript a b) hplace fun _ hv => hv
  | call callee args range =>
    have hcallee : (Node.expr callee).All c.node := h.part (by simp [Node.parts, Part.ofExpr])
    have hargs : ∀ e ∈ args, (Node.expr e).All c.node := fun e he =>
      h.part (by simp [Node.parts, Part.ofExpr, he])
    have hvalues : (Task.expr (.call callee args range)).deeds.Starts c (.exprs args) :=
      .of (.exprs hargs) (by simp +arith [Task.size])
    refine ⟨.of (.expr hcallee) (by simp +arith [Task.size]), fun v hv => ?_⟩
    cases v with
    | function g =>
      cases g with
      | print => exact ⟨hvalues, fun _ _ => trivial⟩
      | user f =>
        refine ⟨hvalues, fun vs hvs => ⟨.of ⟨?_, hv, hvs, hplace⟩ ?_, fun _ hv => hv⟩⟩
        · simp [Task.roots]
        · simp +arith [Task.size]
    | _ => exact Plan.meets_fail rfl rfl (place_of_all hcallee)

theorem Flow.meets_normal {free : Jump → Prop} :
    Flow.Meets c .normal ∧ ∀ j ∈ Flow.jump? .normal, free j := ⟨trivial, fun _ hj => by cases hj⟩

/-- A jump that a switch passes on is a `continue`, and is free in what was executed of its body. -/
theorem Flow.meets_afterSwitch {flow : Flow} (h : flow.Meets c) : flow.afterSwitch.Meets c := by
  cases flow with
  | «break» range => trivial
  | _ => exact h

/-- A switch takes the breaks of its body. The statements that it executes are those after its
entry. -/
theorem meets_switch {subject : Expr} {body : Block} {range : Range}
    (h : (Node.stmt (.switch subject body range)).All c.node) :
    (stmtPlan (.switch subject body range)).Meets c
      (Task.stmt (.switch subject body range)).deeds
      ((Task.stmt (.switch subject body range)).Answers c) := by
  have hsubject : (Node.expr subject).All c.node := h.part (by simp [Node.parts, Part.ofStmt])
  have hbody := all_stmts (h.part (c := .stmt (.block body)) (by simp [Node.parts, Part.ofStmt]))
  have hsize := body.sizeOf_stmts_lt
  refine ⟨.of (.expr hsubject) (by simp +arith [Task.size]), fun v _ => ?_⟩
  have hentry : (Task.entry v body.stmts none).Allowed c := .entry hbody (by simp)
  refine ⟨.of hentry (by simp +arith only [Task.size, Stmt.switch.sizeOf_spec]; omega), ?_⟩
  intro found hfound
  cases found with
  | none => exact Flow.meets_normal
  | some rest =>
    have hrest : rest <:+ body.stmts := (hfound rest rfl).resolve_right (by simp)
    have hshorter := sizeOf_le_of_suffix hrest
    refine ⟨.of (.stmts fun s hs => hbody s (hrest.subset hs)) ?_, fun flow hflow => ?_⟩
    · simp only [Task.size, Stmt.switch.sizeOf_spec]
      omega
    · refine ⟨Flow.meets_afterSwitch hflow.1, fun j hj => ?_⟩
      obtain ⟨rfl, hj⟩ := Flow.jump?_afterSwitch hj
      refine ⟨?_, rfl⟩
      rw [Stmt.hasFree, Block.hasFree_eq, Stmt.anyFree_of_suffix (hflow.2 .continue hj) hrest]
      rfl

/-- The plan of an allowed statement meets the contract. -/
theorem meets_stmtPlan {s : Stmt} (h : (Node.stmt s).All c.node) :
    (stmtPlan s).Meets c (Task.stmt s).deeds ((Task.stmt s).Answers c) := by
  have hplace : c.place s.range := place_of_all h
  cases s with
  | expr e range =>
    have he : (Node.expr e).All c.node := h.part (by simp [Node.parts, Part.ofStmt])
    exact ⟨.of (.expr he) (by simp +arith [Task.size]), fun _ _ => Flow.meets_normal⟩
  | decl d range =>
    have hd : (Node.decl d).All c.node := h.part (by simp [Node.parts, Part.ofStmt])
    have hallowed : (Task.declare false d).Allowed c :=
      ⟨by simpa [Task.roots] using hd, fun hfalse => by cases hfalse⟩
    exact ⟨.of hallowed (by simp +arith [Task.size]), fun _ _ => Flow.meets_normal⟩
  | block b =>
    have hsize := b.sizeOf_stmts_lt
    refine ⟨.of (.stmts (all_stmts h)) ?_, fun flow hflow => ⟨hflow.1, fun j hj => ⟨?_, rfl⟩⟩⟩
    · simp only [Task.size, Stmt.block.sizeOf_spec]
      omega
    · rw [Stmt.hasFree, Block.hasFree_eq]
      exact hflow.2 j hj
  | ifElse cond a b range =>
    have hcond : (Node.expr cond).All c.node := h.part (by simp [Node.parts, Part.ofStmt])
    have ha : (Node.stmt a).All c.node := h.part (by simp [Node.parts, Part.ofStmt])
    have hb : ∀ s ∈ b, (Node.stmt s).All c.node := by
      rintro s rfl
      exact h.part (by simp [Node.parts, Part.ofStmt, Part.ofElse])
    refine ⟨.of (.expr hcond) (by simp +arith [Task.size]), fun v _ => ?_⟩
    refine Plan.meets_condition (place_of_all hcond) fun holds => Plan.meets_ite ?_ ?_
    · refine ⟨.of (.stmt ha) (by simp +arith [Task.size]), fun flow hflow => ?_⟩
      refine ⟨hflow.1, fun j hj => ⟨?_, rfl⟩⟩
      rw [Stmt.hasFree, (hflow.2 j hj).1, Bool.true_or]
    · refine ⟨.of (.stmt? hb) (by simp +arith [Task.size]), fun flow hflow => ?_⟩
      refine ⟨hflow.1, fun j hj => ⟨?_, rfl⟩⟩
      rw [Stmt.hasFree, hflow.2 j hj, Bool.or_true]
  | whileDo cond body range =>
    have hcond : (Node.expr cond).All c.node := h.part (by simp [Node.parts, Part.ofStmt])
    have hbody : (Node.stmt body).All c.node := h.part (by simp [Node.parts, Part.ofStmt])
    have hloop : (Task.loop (some cond) none body).Allowed c :=
      .loop (by simpa using hcond) (by simp) hbody ⟨_, h.self, rfl⟩
    refine ⟨.of hloop (by simp +arith [Task.size]), fun flow hflow => ⟨hflow.1, fun j hj => ?_⟩⟩
    cases hflow.2.symm.trans hj
  | doWhile body cond range =>
    have hcond : (Node.expr cond).All c.node := h.part (by simp [Node.parts, Part.ofStmt])
    have hbody : (Node.stmt body).All c.node := h.part (by simp [Node.parts, Part.ofStmt])
    have hloop : (Task.doLoop body cond).Allowed c :=
      ⟨by simpa [Task.roots] using ⟨hbody, hcond⟩, _, h.self, rfl⟩
    refine ⟨.of hloop (by simp +arith [Task.size]), fun flow hflow => ⟨hflow.1, fun j hj => ?_⟩⟩
    cases hflow.2.symm.trans hj
  | forLoop init cond step body scope range =>
    have hinit : ∀ s ∈ init, (Node.stmt s).All c.node := by
      rintro s rfl
      exact h.part (by simp [Node.parts, Part.ofStmt, Part.ofFirst])
    have hcond : ∀ e ∈ cond, (Node.expr e).All c.node := by
      rintro e rfl
      exact h.part (by simp [Node.parts, Part.ofStmt])
    have hstep : ∀ e ∈ step, (Node.expr e).All c.node := by
      rintro e rfl
      exact h.part (by simp [Node.parts, Part.ofStmt])
    have hbody : (Node.stmt body).All c.node := h.part (by simp [Node.parts, Part.ofStmt])
    refine ⟨.of (.stmt? hinit) (by simp +arith [Task.size]), fun _ _ => ?_⟩
    refine ⟨.of (.loop hcond hstep hbody ⟨_, h.self, rfl⟩) (by simp +arith [Task.size]), ?_⟩
    intro flow hflow
    exact ⟨hflow.1, fun j hj => by cases hflow.2.symm.trans hj⟩
  | «switch» subject body range => exact meets_switch h
  | caseLabel value range => exact Flow.meets_normal
  | defaultLabel range => exact Flow.meets_normal
  | «continue» range => exact ⟨hplace, fun j hj => by cases hj; exact ⟨rfl, rfl⟩⟩
  | «break» range => exact ⟨hplace, fun j hj => by cases hj; exact ⟨rfl, rfl⟩⟩
  | «return» value range =>
    have hvalue : ∀ e ∈ value, (Node.expr e).All c.node := by
      rintro e rfl
      exact h.part (by simp [Node.parts, Part.ofStmt])
    refine ⟨.of (.expr? hvalue) (by simp +arith [Task.size]), fun v hv => ?_⟩
    exact ⟨⟨value, range, h.self⟩, rfl, hv, hv, fun _ hj => by cases hj⟩

/-- The entry that is found is the end of the statements, or the fallback. -/
theorem meets_entry {subject : Value} {ss : List Stmt} {fallback : Option (List Stmt)}
    (h : (Task.entry subject ss fallback).Allowed c) :
    (Task.entry subject ss fallback).plan.Meets c (Task.entry subject ss fallback).deeds
      ((Task.entry subject ss fallback).Answers c) := by
  have hss : ∀ s ∈ ss, (Node.stmt s).All c.node := fun s hs =>
    h.nodes _ (List.mem_append_left _ (List.mem_map_of_mem hs))
  have hfallback : ∀ rest ∈ fallback, ∀ s ∈ rest, (Node.stmt s).All c.node := fun rest hrest s hs =>
    h.nodes _ (List.mem_append_right _
      (List.mem_flatMap.2 ⟨rest, by simpa using hrest, List.mem_map_of_mem hs⟩))
  cases ss with
  | nil => exact fun _ hrest => .inr hrest
  | cons s rest =>
    obtain ⟨hs, hrest⟩ := List.forall_mem_cons.1 hss
    -- What is kept while the rest is searched is the fallback, or it ends these statements as well.
    have hnext : ∀ kept, (∀ tail ∈ kept, tail <:+ s :: rest ∨ tail ∈ fallback) →
        (Plan.task (.entry subject rest kept) id .done : Plan (.given false) _).Meets c
          (Task.entry subject (s :: rest) fallback).deeds
          ((Task.entry subject (s :: rest) fallback).Answers c) := by
      intro kept hkept
      refine ⟨.of (.entry hrest fun tail htail t ht => ?_) (by simp +arith [Task.size]), ?_⟩
      · rcases hkept tail htail with hsuffix | hmem
        · exact hss t (hsuffix.subset ht)
        · exact hfallback tail hmem t ht
      · intro found hfound tail htail
        rcases hfound tail htail with hsuffix | hmem
        · exact .inl (hsuffix.trans (List.suffix_cons s rest))
        · exact hkept tail hmem
    cases s with
    | caseLabel e range =>
      have he : (Node.expr e).All c.node := hs.part (by simp [Node.parts, Part.ofStmt])
      refine ⟨.of (.expr he) (by simp +arith [Task.size]), fun v _ => ?_⟩
      refine Plan.meets_located (Value.plain_binary _ subject v) (place_of_all hs) fun _ _ => ?_
      refine Plan.meets_ite ?_ (hnext fallback fun _ hrest => .inr hrest)
      rintro _ ⟨⟩
      exact .inl (List.suffix_refl _)
    | defaultLabel range =>
      refine hnext (fallback <|> some (.defaultLabel range :: rest)) fun tail htail => ?_
      cases fallback with
      | some kept => exact .inr htail
      | none =>
        obtain rfl := Option.some.inj htail
        exact .inl (List.suffix_refl _)
    | _ => exact hnext fallback fun _ hrest => .inr hrest

/-- A loop takes the jumps of its body and hands on no other flow than a `return`. -/
theorem meets_loop {cond step : Option Expr} {body : Stmt}
    (h : (Task.loop cond step body).Allowed c) :
    (Task.loop cond step body).plan.Meets c (Task.loop cond step body).deeds
      ((Task.loop cond step body).Answers c) := by
  have hstarts : ∀ {t : Task}, t.Allowed c → (Task.loop cond step body).deeds.Starts c t :=
    fun ht => ⟨ht, fun hloop => by cases hloop⟩
  have hcond : ∀ x ∈ cond, (Node.expr x).All c.node := fun x hx =>
    h.nodes _ (by simp [Task.roots, Option.mem_def.1 hx])
  have hstep : ∀ x ∈ step, (Node.expr x).All c.node := fun x hx =>
    h.nodes _ (by simp [Task.roots, Option.mem_def.1 hx])
  have hbody : (Node.stmt body).All c.node := h.nodes _ (by simp [Task.roots])
  refine ⟨hstarts ⟨by simpa [Task.roots] using hcond, trivial⟩, fun holds _ => ?_⟩
  refine Plan.meets_ite ⟨hstarts (.stmt hbody), fun flow hflow => ?_⟩ ⟨trivial, rfl⟩
  cases flow with
  | «break» range => exact ⟨trivial, rfl⟩
  | «return» v => exact ⟨hflow.1, rfl⟩
  | _ => exact ⟨hstarts (.expr? hstep), fun _ _ => ⟨hstarts h, fun _ hflow => hflow⟩⟩

theorem meets_doLoop {body : Stmt} {cond : Expr} (h : (Task.doLoop body cond).Allowed c) :
    (Task.doLoop body cond).plan.Meets c (Task.doLoop body cond).deeds
      ((Task.doLoop body cond).Answers c) := by
  have hstarts : ∀ {t : Task}, t.Allowed c → (Task.doLoop body cond).deeds.Starts c t :=
    fun ht => ⟨ht, fun hloop => by cases hloop⟩
  have hcond : (Node.expr cond).All c.node := h.nodes _ (by simp [Task.roots])
  have hagain : (Plan.task (.expr cond) (fun _ => rfl) fun v => .condition cond v fun holds =>
      if holds then .task (.doLoop body cond) id .done else .done .normal :
        Plan (.given true) Flow).Meets c (Task.doLoop body cond).deeds
          ((Task.doLoop body cond).Answers c) := by
    refine ⟨hstarts (.expr hcond), fun v _ => ?_⟩
    refine Plan.meets_condition (place_of_all hcond) fun holds => Plan.meets_ite ?_ ⟨trivial, rfl⟩
    exact ⟨hstarts h, fun _ hflow => hflow⟩
  refine ⟨hstarts (.stmt (h.nodes _ (by simp [Task.roots]))), fun flow hflow => ?_⟩
  cases flow with
  | «break» range => exact ⟨trivial, rfl⟩
  | «return» v => exact ⟨hflow.1, rfl⟩
  | _ => exact hagain

/-- A declaration starts its initial value and binds functions of the contract. -/
theorem meets_declare {allowed : Bool} {d : Decl} (h : (Task.declare allowed d).Allowed c) :
    (Task.declare allowed d).plan.Meets c (Task.declare allowed d).deeds fun _ => True := by
  have hd : (Node.decl d).All c.node := h.nodes _ (by simp [Task.roots])
  cases d with
  | var v =>
    have hinit : ∀ e ∈ v.init, (Node.expr e).All c.node := by
      intro e he
      refine hd.part ?_
      simp [Node.parts, Part.ofDecl, Option.mem_def.1 he, Part.ofInit]
    have hsize := v.sizeOf_init_lt
    refine ⟨.of (.expr? hinit) ?_, fun value hvalue => ⟨hvalue, place_of_all hd, trivial⟩⟩
    simp only [Task.size, Decl.var.sizeOf_spec]
    omega
  | func f =>
    have hident : (Node.ident f.ident).All c.node := hd.part (by simp [Node.parts, Part.ofDecl])
    cases allowed with
    | true => exact ⟨h.uses rfl f rfl, place_of_all hident, trivial⟩
    | false => exact Plan.meets_fail rfl rfl (place_of_all hd)
  | group g => cases allowed <;> exact Plan.meets_fail rfl rfl (place_of_all hd)

/-- The plan of a task that a contract allows meets the contract. -/
theorem Task.meets_plan {t : Task} (h : t.Allowed c) : t.plan.Meets c t.deeds (t.Answers c) := by
  have hnodes := h.nodes
  cases t with
  | expr e => exact meets_exprPlan (hnodes _ (by simp [roots]))
  | expr? e =>
    cases e with
    | none => trivial
    | some e =>
      exact ⟨.of (.expr (hnodes _ (by simp [roots]))) (by simp +arith [size]), fun _ hv => hv⟩
  | test cond =>
    cases cond with
    | none => trivial
    | some e =>
      have he : (Node.expr e).All c.node := hnodes _ (by simp [roots])
      refine ⟨.of (.expr he) (by simp +arith [size]), fun v _ => ?_⟩
      exact Plan.meets_condition (place_of_all he) fun _ => trivial
  | exprs es =>
    cases es with
    | nil => exact fun _ hv => by cases hv
    | cons e rest =>
      rw [roots, List.map_cons, List.forall_mem_cons] at hnodes
      refine ⟨.of (.expr hnodes.1) (by simp +arith [size]), fun v hv => ?_⟩
      refine ⟨.of ⟨hnodes.2, trivial⟩ (by simp +arith [size]), fun vs hvs => ?_⟩
      exact List.forall_mem_cons.2 ⟨hv, hvs⟩
  | call f args range =>
    obtain ⟨hf, hargs, hrange⟩ := h.uses
    refine Plan.meets_ite (Plan.meets_fail rfl rfl hrange) ⟨⟨?_, hf, hargs⟩, hrange, fun _ hv => hv⟩
    simp [roots]
  | run f args => exact ⟨h, fun _ => f.sizeOf_body_lt, fun _ hv => hv⟩
  | stmt s => exact meets_stmtPlan (hnodes _ (by simp [roots]))
  | stmt? s =>
    cases s with
    | none => exact Flow.meets_normal
    | some s =>
      refine ⟨.of (.stmt (hnodes _ (by simp [roots]))) (by simp +arith [size]),
        fun flow hflow => ?_⟩
      exact ⟨hflow.1, fun j hj => (hflow.2 j hj).1⟩
  | stmts ss =>
    cases ss with
    | nil => exact Flow.meets_normal
    | cons s rest =>
      rw [roots, List.map_cons, List.forall_mem_cons] at hnodes
      refine ⟨.of (.stmt hnodes.1) (by simp +arith [size]), fun flow hflow => ?_⟩
      have hfree : (Task.stmts (s :: rest)).Answers c flow := by
        refine ⟨hflow.1, fun j hj => ?_⟩
        rw [Stmt.anyFree, (hflow.2 j hj).1, Bool.true_or]
      cases flow with
      | normal =>
        refine ⟨.of ⟨hnodes.2, trivial⟩ (by simp +arith [size]), fun flow hflow => ?_⟩
        refine ⟨hflow.1, fun j hj => ?_⟩
        exact Stmt.anyFree_of_suffix (hflow.2 j hj) (List.suffix_cons s rest)
      | _ => exact hfree
  | loop cond step body => exact meets_loop h
  | doLoop body cond => exact meets_doLoop h
  | entry subject ss fallback => exact meets_entry h
  | declare allowed d => exact meets_declare h

/-! ## The plans of programs and scripts -/

/-- Only tasks up to a size are started, and nothing is written to. -/
def Deeds.upTo (bound : Nat) : Deeds := ⟨(·.size ≤ bound), fun _ => False⟩

/-- Declarations at the start of a plan meet the contract if those after them do. -/
theorem meets_declarePlan {d : Deeds} {next : Plan (.given true) Value} {post : Value → Prop}
    {ds : List Decl} (hnodes : ∀ x ∈ ds, (Node.decl x).All c.node)
    (hfuncs : ∀ f, .func f ∈ ds → c.func f) (hstarts : ∀ x ∈ ds, d.starts (.declare true x))
    (hnext : next.Meets c d post) : (declarePlan next ds).Meets c d post := by
  induction ds with
  | nil => exact hnext
  | cons x rest ih =>
    rw [List.forall_mem_cons] at hnodes hstarts
    have hx : (Task.declare true x).Allowed c := by
      refine ⟨by simpa [Task.roots] using hnodes.1, ?_⟩
      rintro - f rfl
      exact hfuncs f List.mem_cons_self
    refine ⟨⟨hx, hstarts.1⟩, fun _ _ => ih hnodes.2 (fun f hf => ?_) hstarts.2⟩
    exact hfuncs f (List.mem_cons_of_mem x hf)

/-- The plan of a program meets a contract that allows its declarations and the call of `main`. -/
theorem meets_programPlan {p : Program} (hnodes : ∀ d ∈ p.decls, (Node.decl d).All c.node)
    (hfuncs : ∀ f, .func f ∈ p.decls → c.func f) (hc : c.main) :
    (programPlan p).Meets c (.upTo (sizeOf p.decls)) (Value.Funcs c.func) := by
  refine meets_declarePlan hnodes hfuncs (fun d hd => ?_) ⟨hc, fun main hmain => ?_⟩
  · exact Nat.le_of_lt (List.sizeOf_lt_of_mem hd)
  · have hplace : c.place main.range := place_of_all (c.nodes main hmain)
    exact ⟨⟨⟨by simp [Task.roots], hmain, by simp, hplace⟩, Nat.zero_le _⟩, fun _ hv => hv⟩

/-- The plan of a script meets a contract that allows its statements and their stray jumps. -/
theorem meets_outerPlan {bound : Nat} {ss : List Stmt} (hsize : sizeOf ss ≤ bound)
    (hnodes : ∀ s ∈ ss, (Node.stmt s).All c.node)
    (hfuncs : ∀ f range, .decl (.func f) range ∈ ss → c.func f)
    (hjumps : ∀ j, Stmt.anyFree j ss = true → c.jump j) :
    (outerPlan ss).Meets c (.upTo bound) (Value.Funcs c.func) := by
  induction ss with
  | nil => trivial
  | cons s rest ih =>
    rw [List.forall_mem_cons] at hnodes
    obtain ⟨hs, hrest⟩ : sizeOf s ≤ bound ∧ sizeOf rest ≤ bound := by
      simp only [List.cons.sizeOf_spec] at hsize
      omega
    have ih : (outerPlan rest).Meets c (.upTo bound) (Value.Funcs c.func) := by
      refine ih hrest hnodes.2 (fun f range hf => ?_) fun j hj => ?_
      · exact hfuncs f range (List.mem_cons_of_mem s hf)
      · exact hjumps j (Stmt.anyFree_of_suffix hj (List.suffix_cons s rest))
    have hstray : ∀ j, s.hasFree j = true → c.jump j := fun j hj =>
      hjumps j (by rw [Stmt.anyFree, hj, Bool.true_or])
    have hstmt : (Deeds.upTo bound).Starts c (.stmt s) := ⟨.stmt hnodes.1, hs⟩
    cases s with
    | decl d range =>
      have hd : (Task.declare true d).Allowed c := by
        refine ⟨?_, ?_⟩
        · simpa [Task.roots] using hnodes.1.part (c := .decl d) (by simp [Node.parts, Part.ofStmt])
        · rintro - f rfl
          exact hfuncs f range List.mem_cons_self
      refine ⟨⟨hd, ?_⟩, fun _ _ => ih⟩
      simp only [Stmt.decl.sizeOf_spec] at hs
      simp only [Deeds.upTo, Task.size]
      omega
    | _ =>
      refine ⟨hstmt, fun flow hflow => ?_⟩
      cases flow with
      | normal => exact ih
      | «return» v => exact hflow.1
      | «break» range =>
        refine RuntimeError.meets_fault rfl (fun j hj => ?_) hflow.1
        cases hj
        exact hstray .break (hflow.2 .break rfl).1
      | «continue» range =>
        refine RuntimeError.meets_fault rfl (fun j hj => ?_) hflow.1
        cases hj
        exact hstray .continue (hflow.2 .continue rfl).1

end

/-! ## Runs under a contract -/

variable {α β : Type} {c : Contract} {post : α → Prop} {n : Nat}

/-- A run from an environment with functions of a contract leaves one with such functions. It gives
what `post` says, or it stops as the contract allows. -/
def Meets (c : Contract) (post : α → Prop) (act : Eval α) : Prop :=
  ∀ env, env.Funcs c.func → match act env with
    | .ok a env' => post a ∧ env'.Funcs c.func
    | .error stop env' => stop.Meets c ∧ env'.Funcs c.func

theorem Meets.of_ok {act : Eval α} (h : Meets c post act) {env env' : Env} {a : α}
    (henv : env.Funcs c.func) (hrun : act env = .ok a env') : post a ∧ env'.Funcs c.func := by
  have hact := h env henv
  rwa [hrun] at hact

theorem Meets.of_error {act : Eval α} (h : Meets c post act) {env env' : Env} {stop : Stop}
    (henv : env.Funcs c.func) (hrun : act env = .error stop env') :
    stop.Meets c ∧ env'.Funcs c.func := by
  have hact := h env henv
  rwa [hrun] at hact

/-- However a run ends, it leaves functions of the contract. -/
theorem Meets.funcs_left {act : Eval α} (h : Meets c post act) {env : Env}
    (henv : env.Funcs c.func) : (left (act env)).Funcs c.func := by
  cases hrun : act env with
  | ok a env' => exact (h.of_ok henv hrun).2
  | error stop env' => exact (h.of_error henv hrun).2

/-- Runs in sequence keep a contract if each of them does. -/
theorem Meets.bind {act : Eval α} {k : α → Eval β} {post' : β → Prop} (h : Meets c post act)
    (hk : ∀ a, post a → Meets c post' (k a)) : Meets c post' (act >>= k) := by
  intro env henv
  cases hrun : act env with
  | ok a env' =>
    rw [bind_of_ok hrun]
    exact hk a (h.of_ok henv hrun).1 env' (h.of_ok henv hrun).2
  | error stop env' =>
    rw [bind_of_error hrun]
    exact h.of_error henv hrun

/-- What is known of the answer may be weakened. -/
theorem Meets.imp {act : Eval α} {post' : α → Prop} (h : Meets c post act)
    (hpost : ∀ a, post a → post' a) : Meets c post' act := by
  rw [← bind_pure act]
  exact h.bind fun a ha env henv => ⟨hpost a ha, henv⟩

theorem meets_pure {a : α} (h : post a) : Meets c post (pure a) := fun _ henv => ⟨h, henv⟩

theorem meets_throw {e : RuntimeError} (h : e.Meets c) :
    Meets c post (throw (.failed e) : Eval α) := fun _ henv => ⟨h, henv⟩

theorem meets_fail {fault : RuntimeFault} {range : Range} (hplace : fault.hasPlace)
    (hjump : ∀ j ∈ fault.jump?, c.jump j) (h : c.place range) : Meets c post (fail fault range) :=
  meets_throw (RuntimeError.meets_fault hplace hjump h)

theorem meets_push : Meets c (fun _ => True) push := fun _ henv => ⟨trivial, henv.push⟩

theorem meets_pop : Meets c (fun _ => True) pop := fun _ henv => ⟨trivial, henv.pop⟩

theorem meets_find? (name : String) :
    Meets c (fun found => ∀ symbol ∈ found, symbol.value.Funcs c.func) (find? name) :=
  fun _ henv => ⟨fun _ hsymbol => henv.find? hsymbol, henv⟩

/-- A value of the contract may be bound; a name that is taken is told at its place. -/
theorem meets_add (name : String) {symbol : Symbol} {range : Range}
    (hsymbol : symbol.value.Funcs c.func) (hrange : c.place range) :
    Meets c (fun _ => True) (add name symbol range) := by
  intro env henv
  unfold add
  cases h : env.stack.add? name symbol with
  | some stack => exact ⟨trivial, henv.add hsymbol h⟩
  | none => exact ⟨RuntimeError.meets_fault rfl (fun _ hj => by cases hj) hrange, henv⟩

theorem meets_set (name : String) {v : Value} (hv : v.Funcs c.func) :
    Meets c (fun _ => True) (set name v) := fun _ henv => ⟨trivial, henv.set hv name⟩

/-- The value of a name is one of the contract; a missing name is told at its place. -/
theorem meets_lookup {ident : Ident} (h : c.place ident.range) :
    Meets c (Value.Funcs c.func) (lookup ident) := by
  refine (meets_find? ident.name).bind fun found hfound => ?_
  cases found with
  | some symbol => exact meets_pure (hfound symbol rfl)
  | none =>
    dsimp only
    split
    · exact meets_pure trivial
    · exact meets_fail rfl (fun _ hj => by cases hj) h

theorem meets_target {e : Expr} (h : c.place e.range) :
    Meets c (fun p => p.2.Funcs c.func) (target e) := by
  have hnojump : ∀ {fault : RuntimeFault}, fault.jump? = none → ∀ j ∈ fault.jump?, c.jump j :=
    fun hfault j hj => by rw [hfault] at hj; cases hj
  unfold target
  cases hident : e.ident? with
  | none => exact meets_fail rfl (hnojump rfl) h
  | some ident =>
    have hrange : ident.range = e.range := by
      cases e with
      | name i =>
        obtain rfl : i = ident := by simpa [Expr.ident?] using hident
        rfl
      | _ => simp [Expr.ident?] at hident
    refine (meets_find? ident.name).bind fun found hfound => ?_
    cases found with
    | none => exact meets_fail rfl (hnojump rfl) (hrange ▸ h)
    | some symbol =>
      obtain ⟨kind, value⟩ := symbol
      cases kind with
      | var => exact meets_pure (hfound _ rfl)
      | const | func => exact meets_fail rfl (hnojump rfl) h

/-- Output is refused without a place. -/
theorem meets_print (args : List Value) : Meets c (fun _ => True) (print args) := by
  intro env henv
  unfold print write
  generalize env.sink.writeAll _ = written
  obtain ⟨refused, sink⟩ := written
  cases refused with
  | none => exact ⟨trivial, henv⟩
  | some message => exact ⟨⟨rfl, fun _ hj => by cases hj⟩, henv⟩

/-- The last step of a task keeps to a contract if the contract allows it. -/
theorem Step.meets_run {d : Deeds} {gains : Bool} {s : Step gains α} (h : s.Meets c d post) :
    Eval.Meets c post s.run := by
  cases s with
  | done a => exact meets_pure h
  | fail e => exact meets_throw h
  | lookup ident => exact (meets_lookup ⟨_, h.1, rfl⟩).imp h.2
  | update e range new answer =>
    obtain ⟨he, hrange, -, hnew⟩ := h
    refine (meets_target ⟨_, he, rfl⟩).bind fun p hp => ?_
    obtain ⟨hfault, hvalue⟩ := hnew p.2 hp
    cases hrun : new p.2 with
    | error fault => exact meets_throw (RuntimeFault.meets_at (hfault fault hrun) hrange)
    | ok v => exact (meets_set p.1 (hvalue v hrun).1).bind fun _ _ => meets_pure (hvalue v hrun).2
  | deliver v => exact (meets_set resultName h.2.2.1).bind fun _ _ => meets_pure h.2.2.2
  | bind name symbol range => exact (meets_add name h.1 h.2.1).imp fun _ _ => h.2.2
  | print args => exact (meets_print args).bind fun _ _ => meets_pure h

/-- Arguments of the contract may be bound to parameters. -/
theorem meets_bindArgs {params : List Variable} {args : List Value}
    (hparams : ∀ v ∈ params, c.place v.range) (hargs : ∀ v ∈ args, v.Funcs c.func) :
    Meets c (fun _ => True) (bindArgs params args) := by
  induction params generalizing args with
  | nil => exact meets_pure trivial
  | cons param params ih =>
    cases args with
    | nil => exact meets_pure trivial
    | cons arg args =>
      rw [List.forall_mem_cons] at hparams hargs
      exact (meets_add _ hargs.1 hparams.1).bind fun _ _ => ih hparams.2 hargs.2

/-- A function of the contract may be entered with arguments of the contract. -/
theorem meets_enter {f : Func} {args : List Value} (hf : c.func f)
    (hargs : ∀ v ∈ args, v.Funcs c.func) : Meets c (fun _ => True) (enter f args) := by
  have hnodes := c.nodes f hf
  have hparams : ∀ v ∈ f.params, c.place v.range := fun v hv =>
    place_of_all (hnodes.part (c := .param v) (by simp [Node.parts, Part.ofDecl, hv]))
  have hslot : Meets c (fun _ => True) (add resultName ⟨.var, .null⟩ f.range) :=
    meets_add resultName trivial (place_of_all hnodes)
  exact meets_push.bind fun _ _ => hslot.bind fun _ _ => meets_bindArgs hparams hargs

/-- A jump that comes out of the body of a function is free in it. -/
theorem meets_leave {f : Func} {flow : Flow} (hf : c.func f)
    (hflow : (Task.stmts f.body.stmts).Answers c flow) :
    Meets c (Value.Funcs c.func) (leave flow) := by
  have hslot : Meets c (Value.Funcs c.func) result := by
    refine (meets_find? resultName).bind fun found hfound => ?_
    cases found with
    | some symbol => exact meets_pure (hfound symbol rfl)
    | none => exact meets_pure trivial
  have hresult : Meets c (Value.Funcs c.func) (result >>= fun v => pop >>= fun _ => pure v) :=
    hslot.bind fun v hv => meets_pop.bind fun _ _ => meets_pure hv
  have hstray : ∀ j ∈ flow.jump?, c.jump j := fun j hj => c.jumps f hf j (hflow.2 j hj)
  cases flow with
  | normal => exact hresult
  | «return» v => exact hresult
  | «break» range => exact meets_fail rfl (fun j hj => hstray j hj) hflow.1
  | «continue» range => exact meets_fail rfl (fun j hj => hstray j hj) hflow.1

/-- A call that keeps the contract keeps it at the limit too, which is told at the place of the
call. -/
theorem meets_calling {act : Eval α} {range : Range} (hact : Meets c post act)
    (h : c.place range) : Meets c post (calling range act) := by
  intro env henv
  by_cases hlimit : env.maxCallDepth ≤ env.callDepth
  · rw [calling_of_limit range hlimit]
    exact ⟨RuntimeError.meets_fault rfl (fun _ hj => by cases hj) h, henv⟩
  · have hfuncs : env.deeper.Funcs c.func := henv
    cases hdeeper : act env.deeper with
    | ok a env' =>
      rw [calling_of_ok range hlimit hdeeper]
      have hends := hact.of_ok hfuncs hdeeper
      exact hends
    | error stop env' =>
      rw [calling_of_error range hlimit hdeeper]
      have hends := hact.of_error hfuncs hdeeper
      exact hends

/-- That there is no function to start with is told without a place. -/
theorem meets_mainFunction : Meets c c.func mainFunction := by
  refine (meets_find? "main").bind fun found hfound => ?_
  split
  · exact meets_pure (hfound _ rfl)
  · exact meets_throw ⟨rfl, fun _ hj => by cases hj⟩

/-- What a plan does keeps to a contract that it meets, if its tasks keep to it. -/
theorem Plan.meets_run {d : Deeds} {i : Innermost} {plan : Plan i α}
    (ih : ∀ t : Task, t.Allowed c → Eval.Meets c (t.Answers c) (t.perform n))
    (h : plan.Meets c d post) : Eval.Meets c post (plan.run n) := by
  induction plan with
  | step s => exact s.meets_run h
  | task t _ k ihk => exact (ih t h.1.allowed).bind fun a ha => ihk a (h.2 a ha)
  | framed t k ihk =>
    exact meets_push.bind fun _ _ => (ih t h.1.allowed).bind fun a ha => ihk a (h.2 a ha)
  | close a => exact meets_pop.bind fun _ _ => meets_pure h
  | call f args range => exact meets_calling ((ih (.run f args) h.1).imp h.2.2) h.2.1
  | invoke f args =>
    obtain ⟨⟨-, hf, hargs⟩, -, hpost⟩ := h
    have hbody : (Task.stmts f.body.stmts).Allowed c := Task.allowed_body hf
    refine (meets_enter hf hargs).bind fun _ _ => (ih _ hbody).bind fun flow hflow => ?_
    exact (meets_leave hf hflow).imp hpost
  | main k ihk => exact meets_mainFunction.bind fun f hf => ihk f (h.2 f hf)

/-- A task that a contract allows keeps to it. -/
theorem meets_perform (n : Nat) {t : Task} (h : t.Allowed c) :
    Meets c (t.Answers c) (t.perform n) := by
  induction n generalizing t with
  | zero =>
    intro env henv
    rw [Task.perform_zero]
    exact ⟨trivial, henv⟩
  | succ n ih =>
    rw [Task.perform_succ]
    exact Plan.meets_run (fun _ ht => ih ht) (Task.meets_plan h)

/-- A run of a program keeps a contract that allows its declarations and the call of `main`. -/
theorem meets_program (n : Nat) {p : Program} (hnodes : ∀ d ∈ p.decls, (Node.decl d).All c.node)
    (hfuncs : ∀ f, .func f ∈ p.decls → c.func f) (hc : c.main) :
    Meets c (Value.Funcs c.func) (p.run n) := by
  rw [← run_programPlan]
  exact Plan.meets_run (fun _ ht => meets_perform n ht) (meets_programPlan hnodes hfuncs hc)

/-- A run of a script keeps a contract that allows its statements and their stray jumps. -/
theorem meets_outerStmts (n : Nat) {ss : List Stmt} (hnodes : ∀ s ∈ ss, (Node.stmt s).All c.node)
    (hfuncs : ∀ f range, .decl (.func f) range ∈ ss → c.func f)
    (hjumps : ∀ j, Stmt.anyFree j ss = true → c.jump j) :
    Meets c (Value.Funcs c.func) (outerStmts n ss) := by
  rw [← run_outerPlan]
  exact Plan.meets_run (fun _ ht => meets_perform n ht)
    (meets_outerPlan (Nat.le_refl _) hnodes hfuncs hjumps)

/-- Where nothing is said of nodes, a task is allowed for the functions that it uses. -/
theorem Task.allowed_holding {F : Func → Prop} {t : Task} (h : t.Uses (.holding F)) :
    t.Allowed (.holding F) := ⟨fun _ _ _ _ => trivial, h⟩

/-- Where nothing is said of functions either, all tasks are allowed. -/
theorem Task.allowed_free (t : Task) : t.Allowed (.holding fun _ => True) := by
  refine Task.allowed_holding ?_
  cases t with
  | call f args range =>
    exact ⟨trivial, fun v _ => v.funcs_of_forall fun _ => trivial, Contract.place_holding _ range⟩
  | run f args => exact ⟨trivial, fun v _ => v.funcs_of_forall fun _ => trivial⟩
  | loop | doLoop => exact Contract.loop_holding _
  | declare allowed d => exact fun _ _ _ => trivial
  | _ => trivial

/-! ## Parts under a contract -/

/-- What holds of a task that is started in the course of a plan. It is one of the deeds at the
same depth of calls, or a function that is run one call deeper. -/
structure Deeds.StartsIn (c : Contract) (d : Deeds) (env : Env) (p : Task × Env) : Prop where
  allowed : p.1.Allowed c
  funcs : p.2.Funcs c.func
  maxCallDepth : p.2.maxCallDepth = env.maxCallDepth
  kind : (d.starts p.1 ∧ p.2.callDepth = env.callDepth) ∨
    ∃ f args, p.1 = .run f args ∧ env.callDepth < env.maxCallDepth ∧
      p.2.callDepth = env.callDepth + 1

/-- What is started later is started in an environment with the same depth of calls. -/
theorem Deeds.StartsIn.later {d : Deeds} {env env' : Env} {p : Task × Env}
    (h : d.StartsIn c env' p) (hmax : env'.maxCallDepth = env.maxCallDepth)
    (hdepth : env'.callDepth = env.callDepth) : d.StartsIn c env p := by
  obtain ⟨hallowed, hfuncs, hlimit, hkind⟩ := h
  rw [hmax] at hlimit hkind
  rw [hdepth] at hkind
  exact ⟨hallowed, hfuncs, hlimit, hkind⟩

/-- A task is started, and after it others from environments with functions of the contract. -/
theorem Deeds.Starts.andThen {d : Deeds} {t : Task} {env : Env}
    {next : t.Answer → Env → List (Task × Env)} (h : d.Starts c t) (henv : env.Funcs c.func)
    (hnext : ∀ a env', t.Answers c a → env'.Funcs c.func → ∀ p ∈ next a env', d.StartsIn c env' p) :
    ∀ p ∈ t.andThen n env next, d.StartsIn c env p := by
  refine Task.forall_mem_andThen.2 ⟨⟨h.allowed, henv, rfl, .inl ⟨h.starts, rfl⟩⟩, ?_⟩
  intro a env' hrun p hp
  obtain ⟨ha, henv'⟩ := (meets_perform n h.allowed).of_ok henv hrun
  have hgrown := (leaves_perform n t).grown hrun
  exact (hnext a env' ha henv' p hp).later hgrown.maxCallDepth hgrown.callDepth

/-- Whatever a plan starts that meets a contract is one of its deeds or a call of a
function of the contract. -/
theorem Plan.meets_parts {d : Deeds} {i : Innermost} {plan : Plan i α} {env : Env}
    (h : plan.Meets c d post) (henv : env.Funcs c.func) :
    ∀ p ∈ plan.parts n env, d.StartsIn c env p := by
  induction plan generalizing env with
  | step | close => exact fun _ hp => by cases hp
  | task t _ k ihk => exact h.1.andThen henv fun a env' ha henv' => ihk a (h.2 a ha) henv'
  | framed t k ihk =>
    have hopened : env.opened.Funcs c.func := henv.push
    have hinside := h.1.andThen (n := n) hopened fun a env' ha henv' => ihk a (h.2 a ha) henv'
    exact fun p hp => (hinside p hp).later rfl rfl
  | call f args range =>
    rw [parts]
    split
    · exact fun _ hp => by cases hp
    next hlimit =>
      rintro p hp
      obtain rfl := List.mem_singleton.1 hp
      exact ⟨h.1, henv, rfl, .inr ⟨f, args, rfl, Nat.lt_of_not_le hlimit, rfl⟩⟩
  | invoke f args =>
    obtain ⟨⟨-, hf, hargs⟩, hstarts, -⟩ := h
    rw [parts]
    cases henter : enter f args env with
    | error stop env' => exact fun _ hp => by cases hp
    | ok _ env' =>
      have hgrown := grown_enter henter
      intro p hp
      obtain rfl := List.mem_singleton.1 hp
      refine ⟨Task.allowed_body hf, ((meets_enter hf hargs).of_ok henv henter).2, ?_, .inl ?_⟩
      · exact hgrown.maxCallDepth
      · exact ⟨hstarts, hgrown.callDepth⟩
  | main k ihk =>
    rw [parts]
    rcases mainFunction_cases env with ⟨main, hmain⟩ | ⟨e, hmain⟩
    · rw [hmain]
      exact ihk main (h.2 main (meets_mainFunction.of_ok henv hmain).1) henv
    · rw [hmain]
      exact fun _ hp => by cases hp

/-- The parts of a task that a contract allows are allowed by it, and are smaller than the task if
they are at the same depth of calls and the task is not a loop. -/
theorem Task.meets_parts {t : Task} {env : Env} (h : t.Allowed c) (henv : env.Funcs c.func) :
    ∀ p ∈ t.parts n env, t.deeds.StartsIn c env p := by
  rw [Task.parts_eq]
  exact Plan.meets_parts (Task.meets_plan h) henv

end Eval

end Rill
