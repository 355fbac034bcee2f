import Rill.Proofs.Balance
import Rill.Proofs.Extent
import Rill.Run.Outcome

/-!
# Contracts

A `Contract` names what a run may come to : the nodes of trees that it evaluates, the functions that
it holds as values, and the jumps with which it may stop because they have left every loop.

Functions are values, but no operation on values gives one (`Value.Plain`) : they come into an
environment by declarations and are passed on from there. So what holds of the declared functions
holds of all functions in the frames (`Env.Funcs`) and of all that an evaluation gives. The nodes of
a function are those of its tree (`Node.All`). A jump leaves a statement only if the statement has
it free, which is to say outside the bodies of loops, and a `break` outside the bodies of switches
too (`Stmt.hasFree`); so the jumps that may stop a run are the free ones of its functions.
-/

namespace Rill

/-! ## Functions in values and environments -/

/-- What holds of the declared function that a value is; other values hold none. -/
def Value.Funcs (F : Func → Prop) : Value → Prop
  | .function (.user f) => F f
  | _ => True

/-- What holds of all declared functions in the values of an environment. -/
def Env.Funcs (F : Func → Prop) (env : Env) : Prop :=
  ∀ x, ∀ symbol ∈ env.stack.bound x, symbol.value.Funcs F

namespace Value

variable {F : Func → Prop}

/-- A value of another kind holds no function. -/
theorem funcs_of_kind {v : Value} (h : v.kind ≠ .function) : v.Funcs F := by
  cases v with
  | function c => exact absurd rfl h
  | _ => trivial

/-- What holds of all functions holds of those in a value. -/
theorem funcs_of_forall (h : ∀ f, F f) (v : Value) : v.Funcs F := by
  cases v with
  | function c =>
    cases c with
    | user f => exact h f
    | print => trivial
  | _ => trivial

theorem funcs_ofLiteral (l : Literal) : (ofLiteral l).Funcs F := by
  cases l <;> trivial

/-! No operation gives a function. -/

/-- No operator makes a function. -/
theorem kind_of_binary {op : BinaryOp} {a b v : Value} (h : binary op a b = .ok v) :
    v.kind ≠ .function := by
  unfold binary nullBinary boolBinary boolArith intBinary intArith floatBinary charBinary
    stringBinary
    unsupported at h
  grind [kind]

theorem kind_of_unary {op : UnaryOp} {a v : Value} (h : unary op a = .ok v) :
    v.kind ≠ .function := by
  unfold unary unsupported at h
  grind [kind]

theorem kind_of_step {op : UnaryOp} {a v : Value} (h : step op a = .ok v) : v.kind ≠ .function := by
  unfold step unsupported at h
  grind [kind]

/-- No member of a value is a function. -/
theorem kind_of_member {a v : Value} {name : String} (h : a.member name = .ok v) :
    v.kind ≠ .function := by
  unfold member at h
  grind [kind]

theorem kind_of_subscript {a b v : Value} (h : a.subscript b = .ok v) : v.kind ≠ .function := by
  unfold subscript unsupported at h
  grind [kind]

end Value

namespace Env

variable {F : Func → Prop} {env : Env} {x : String}

theorem funcs_of_forall (h : ∀ f, F f) (env : Env) : env.Funcs F := fun _ symbol _ =>
  symbol.value.funcs_of_forall h

/-- A run starts with no declared function. -/
theorem funcs_start (config : Config) (sink : Sink) : (Env.start config sink).Funcs F := by
  simp [Funcs, start, Stack.bound, Stack.frames, Frame.get?]

namespace Funcs

/-- What holds of all declared functions holds of the one that a name is bound to. -/
theorem find? (h : env.Funcs F) {symbol : Symbol} (hfind : env.stack.find? x = some symbol) :
    symbol.value.Funcs F := by
  rw [Stack.find?_eq_head?] at hfind
  exact h x symbol (List.mem_of_head? hfind)

/-- To bind a function keeps what holds of all, if it holds of that one. -/
theorem add (h : env.Funcs F) {symbol : Symbol} (hsymbol : symbol.value.Funcs F) {stack : Stack}
    (hadd : env.stack.add? x symbol = some stack) : Env.Funcs F { env with stack := stack } := by
  intro y other hother
  rw [Stack.bound_add? hadd] at hother
  split at hother
  · rcases List.mem_cons.1 hother with rfl | hother
    · exact hsymbol
    · exact h y other hother
  · exact h y other hother

/-- To set a name to a function keeps what holds of all, if it holds of that one. -/
theorem set (h : env.Funcs F) {v : Value} (hv : v.Funcs F) (x : String) :
    Env.Funcs F { env with stack := (env.stack.set? x v).getD env.stack } := by
  cases hset : env.stack.set? x v with
  | none => exact h
  | some stack =>
    intro y other hother
    have hbound := h y
    rw [Option.getD_some, Stack.bound_set? hset] at hother
    split at hother
    · cases hsymbols : env.stack.bound y with
      | nil => simp [hsymbols, Stack.setHead] at hother
      | cons symbol rest =>
        rw [hsymbols, Stack.setHead] at hother
        rcases List.mem_cons.1 hother with rfl | hother
        · exact hv
        · exact hbound other (by simp [hsymbols, hother])
    · exact hbound other hother

theorem pop (h : env.Funcs F) : env.closed.Funcs F := fun y other hother =>
  h y other ((Stack.bound_pop_suffix env.stack y).subset hother)

theorem push (h : env.Funcs F) : env.opened.Funcs F := h

end Funcs

end Env

/-! ## Free jumps -/

mutual

/-- A statement has a jump that is not inside the body of a loop in it and, if it is a `break`, not
inside the body of a switch either. -/
def Stmt.hasFree (j : Jump) : Stmt → Bool
  | .break _ => j == .break
  | .continue _ => j == .continue
  | .block b => b.hasFree j
  | .ifElse _ a b _ => a.hasFree j || Stmt.hasFree? j b
  | .forLoop init .. => Stmt.hasFree? j init
  | .switch _ body _ => j == .continue && body.hasFree j
  | .expr .. | .decl .. | .whileDo .. | .doWhile ..
  | .caseLabel .. | .defaultLabel _ | .return .. => false

/-- A statement that may be missing has a free jump. -/
def Stmt.hasFree? (j : Jump) : Option Stmt → Bool
  | none => false
  | some s => s.hasFree j

/-- Some of the statements have a free jump. -/
def Stmt.anyFree (j : Jump) : List Stmt → Bool
  | [] => false
  | s :: rest => s.hasFree j || Stmt.anyFree j rest

/-- A block has a free jump. -/
def Block.hasFree (j : Jump) : Block → Bool
  | ⟨stmts, _, _⟩ => Stmt.anyFree j stmts

end

theorem Block.hasFree_eq (j : Jump) (b : Block) : b.hasFree j = Stmt.anyFree j b.stmts := by
  obtain ⟨stmts, scope, range⟩ := b
  rw [hasFree]

/-- A jump that is free in the end of some statements is free in them. -/
theorem Stmt.anyFree_of_suffix {j : Jump} {ss rest : List Stmt} (h : anyFree j rest = true)
    (hrest : rest <:+ ss) :
    anyFree j ss = true := by
  obtain ⟨before, rfl⟩ := hrest
  induction before with
  | nil => exact h
  | cons s before ih => rw [List.cons_append, anyFree, ih, Bool.or_true]

/-- The jump with which a statement finishes. -/
def Flow.jump? : Flow → Option Jump
  | .break _ => some .break
  | .continue _ => some .continue
  | .normal | .return _ => none

/-- The jump that a fault is about. -/
def RuntimeFault.jump? : RuntimeFault → Option Jump
  | .jumpOutsideLoop j => some j
  | _ => none

/-- The jump that has left all loops and so has stopped a run. -/
def Stop.jump? : Stop → Option Jump
  | .failed e => e.fault.jump?
  | .exhausted => none

/-- A switch takes a `break` for its end and passes a `continue` on. -/
theorem Flow.jump?_afterSwitch {flow : Flow} {j : Jump} (h : j ∈ flow.afterSwitch.jump?) :
    j = .continue ∧ j ∈ flow.jump? := by
  cases flow <;> cases h
  exact ⟨rfl, rfl⟩

/-! ## Operations on values -/

namespace Value

/-- What an operation on values may give : no function, and no fault about a jump. -/
structure Plain (r : Except RuntimeFault Value) : Prop where
  value : ∀ v, r = .ok v → v.kind ≠ .function
  fault : ∀ fault, r = .error fault → fault.jump? = none

/-- An operator gives no function, and its faults are not about jumps. -/
theorem plain_binary (op : BinaryOp) (a b : Value) : Plain (binary op a b) := by
  refine ⟨fun _ => kind_of_binary, fun fault h => ?_⟩
  unfold binary nullBinary boolBinary boolArith intBinary intArith floatBinary charBinary
    stringBinary
    unsupported at h
  grind [RuntimeFault.jump?]

theorem plain_unary (op : UnaryOp) (a : Value) : Plain (unary op a) := by
  refine ⟨fun _ => kind_of_unary, fun fault h => ?_⟩
  unfold unary unsupported at h
  grind [RuntimeFault.jump?]

theorem plain_step (op : UnaryOp) (a : Value) : Plain (step op a) := by
  refine ⟨fun _ => kind_of_step, fun fault h => ?_⟩
  unfold step unsupported at h
  grind [RuntimeFault.jump?]

theorem plain_member (a : Value) (name : String) : Plain (a.member name) := by
  refine ⟨fun _ => kind_of_member, fun fault h => ?_⟩
  unfold member at h
  grind [RuntimeFault.jump?]

/-- An element of a value is no function, and its faults are not about jumps. -/
theorem plain_subscript (a b : Value) : Plain (a.subscript b) := by
  refine ⟨fun _ => kind_of_subscript, fun fault h => ?_⟩
  unfold subscript unsupported at h
  grind [RuntimeFault.jump?]

end Value

/-- A place is all that an error has besides its fault. -/
@[simp]
theorem RuntimeFault.fault_at (fault : RuntimeFault) (range : Range) :
    (fault.at range).fault = fault := by
  unfold RuntimeFault.at RuntimeError.locate
  split <;> rfl

/-! ## Trees -/

/-- What holds of a node and of all nodes in it. -/
def Node.All (P : Node → Prop) (n : Node) : Prop := ∀ m, n.Holds m → P m

/-- The nodes among commas are the nodes. -/
@[simp]
theorem Part.node_mem_separated {n : Node} {ns : List Node} :
    .node n ∈ separated ns ↔ n ∈ ns := by
  fun_induction separated ns with
  | case1 => simp
  | case2 m => simp
  | case3 m next rest ih => simp [ih]

namespace Node.All

variable {P : Node → Prop} {n c : Node}

theorem self (h : n.All P) : P n := h n (.self n)

/-- What holds of a node and of all nodes in it holds of each of its parts. -/
theorem part (h : n.All P) (hc : .node c ∈ n.parts) : c.All P := fun m hm =>
  h m (.child (List.mem_filterMap.2 ⟨_, hc, rfl⟩) hm)

/-- What a node passes on to its parts holds of all nodes in it. -/
theorem of_parts (hparts : ∀ {n c : Node}, P n → .node c ∈ n.parts → P c) (h : P n) : n.All P := by
  intro m hm
  induction hm with
  | self n => exact h
  | child hc _ ih =>
    obtain ⟨part, hpart, hnode⟩ := List.mem_filterMap.1 hc
    cases part with
    | word pattern => cases hnode
    | node c =>
      cases hnode
      exact ih (hparts h hpart)

end Node.All

/-! ## Contracts -/

/-- What a run may come to : nodes that are evaluated, functions that are held, jumps that stop it,
and a search for the function to start with. It comes to the nodes of its functions, and to the
jumps that are free in them. -/
structure Contract where
  node : Node → Prop
  func : Func → Prop
  jump : Jump → Prop
  main : Prop := True
  nodes : ∀ f, func f → (Node.decl (.func f)).All node
  jumps : ∀ f, func f → ∀ j, Stmt.anyFree j f.body.stmts = true → jump j

namespace Contract

/-- The range of a node. -/
def place (c : Contract) (range : Range) : Prop := ∃ n, c.node n ∧ n.range = range

/-- There is a loop among the nodes. -/
def loop (c : Contract) : Prop := ∃ s : Stmt, c.node (.stmt s) ∧ s.kind.isLoop = true

/-- Functions of one kind, and nothing said of nodes and jumps. -/
def holding (F : Func → Prop) : Contract where
  node _ := True
  func := F
  jump _ := True
  nodes _ _ _ _ := trivial
  jumps _ _ _ _ := trivial

theorem place_holding (F : Func → Prop) (range : Range) : (holding F).place range :=
  ⟨.expr (.literal .null range), trivial, rfl⟩

theorem loop_holding (F : Func → Prop) : (holding F).loop :=
  ⟨.whileDo (.literal .null .unknown) (.defaultLabel .unknown) .unknown, trivial, rfl⟩

end Contract

/-- An error at a range of which `P` holds, or without a place. -/
def RuntimeError.Placed (P : Range → Prop) (e : RuntimeError) : Prop :=
  if e.fault.hasPlace then P e.range else e.range = .unknown

/-- A run may fail so under a contract : at a node, and because of a jump only if it may stray. -/
structure RuntimeError.Meets (c : Contract) (e : RuntimeError) : Prop where
  placed : e.Placed c.place
  jump : ∀ j ∈ e.fault.jump?, c.jump j

/-- A run may stop so under a contract. -/
def Stop.Meets (c : Contract) : Stop → Prop
  | .failed e => e.Meets c
  | .exhausted => True

/-- A statement may finish so under a contract. -/
def Flow.Meets (c : Contract) : Flow → Prop
  | .normal => True
  | .break range | .continue range => c.place range
  | .return v => v.Funcs c.func

/-- A fault at a place of the contract is allowed if its jump may stray. -/
theorem RuntimeError.meets_fault {c : Contract} {fault : RuntimeFault} {range : Range}
    (hplace : fault.hasPlace) (hjump : ∀ j ∈ fault.jump?, c.jump j) (h : c.place range) :
    RuntimeError.Meets c ⟨fault, range⟩ := by
  refine ⟨?_, hjump⟩
  rw [Placed, if_pos hplace]
  exact h

/-- A fault of an operation on values happens at the range of the operation, if it has a place. -/
theorem RuntimeFault.meets_at {c : Contract} {fault : RuntimeFault} {range : Range}
    (hjump : fault.jump? = none) (h : c.place range) : (fault.at range).Meets c := by
  refine ⟨?_, fun j hj => ?_⟩
  · cases hplace : fault.hasPlace with
    | true =>
      simpa [RuntimeError.Placed, RuntimeFault.at, RuntimeError.locate, hplace, Range.isUnknown]
        using h
    | false => simp [RuntimeError.Placed, RuntimeFault.at, RuntimeError.locate, hplace]
  · rw [RuntimeFault.fault_at, hjump] at hj
    cases hj

end Rill
