import Rill.Run.Sink
import Rill.Run.Stack
import Rill.Value.Operation

/-!
# Evaluation steps

`Env` is what a run changes : the stack of frames, the output and the call depth. Two things in it
stay as they are : the limit of the call depth and the way in which values are cut when they are
written. `Eval` is a step on it that gives a value or stops. A stopped step keeps the environment as
it was when it stopped, with the frames that were open then; only the call depth is wound back. A
run stops early because of an error or because it has used up the number of steps it was given; the
two are kept apart, so that more steps never change an answer.
-/

namespace Rill

/-- What a run reads and changes. -/
structure Env where
  stack : Stack := {}
  sink : Sink := {}
  callDepth : Nat := 0
  maxCallDepth : Nat := 256
  cutting : Cutting := .standard

/-- Drops every frame but the global one and forgets the open calls. -/
def Env.reset (env : Env) : Env :=
  { env with stack := env.stack.reset, callDepth := 0 }

/-- Why a run ends early. -/
inductive Stop where
  | failed (error : RuntimeError)
  | exhausted
deriving DecidableEq, Repr

/-- How a statement finished. -/
inductive Flow where
  | normal
  | break (range : Range)
  | continue (range : Range)
  | return (value : Value)

/-- How a loop goes on after a pass over its body : `none` means with the next pass. -/
def Flow.afterPass : Flow → Option Flow
  | .normal => none
  | .continue _ => none
  | .break _ => some .normal
  | .return v => some (.return v)

/-- How a switch finishes after its body. -/
def Flow.afterSwitch : Flow → Flow
  | .break _ => .normal
  | flow => flow

/-- A step of a run. -/
abbrev Eval := EStateM Stop Env

namespace Eval

/-- Stops with a fault at a place. -/
def fail {α : Type} (fault : RuntimeFault) (range : Range) : Eval α :=
  throw (.failed ⟨fault, range⟩)

/-- Stops because no steps are left. -/
def exhausted {α : Type} : Eval α := throw .exhausted

/-- The result of an operation on values, with its fault at a place. -/
def located {α : Type} (range : Range) : Except RuntimeFault α → Eval α
  | .ok a => pure a
  | .error fault => throw (.failed (fault.at range))

/-! ## Names -/

/-- Changes the stack. -/
def modifyStack (f : Stack → Stack) : Eval Unit :=
  modify fun env => { env with stack := f env.stack }

/-- Opens a frame. -/
def push : Eval Unit := modifyStack Stack.push

/-- Drops the innermost frame. -/
def pop : Eval Unit := modifyStack Stack.pop

/-- Binds a name in the innermost frame. -/
def add (name : String) (symbol : Symbol) (range : Range) : Eval Unit := fun env =>
  match env.stack.add? name symbol with
  | some stack => .ok () { env with stack := stack }
  | none => .error (.failed ⟨.duplicateSymbol name, range⟩) env

/-- The symbol of a name. -/
def find? (name : String) : Eval (Option Symbol) :=
  return (← get).stack.find? name

/-- Replaces the value of a name; a name that is not bound is left alone. -/
def set (name : String) (value : Value) : Eval Unit :=
  modifyStack fun stack => (stack.set? name value).getD stack

/-- The value of a name. The name `print` stands for the builtin function where nothing else is
bound to it. -/
def lookup (ident : Ident) : Eval Value := do
  match ← find? ident.name with
  | some symbol => return symbol.value
  | none =>
    if ident.name = "print" then return .function .print
    else fail (.unresolvedSymbol ident.name) ident.range

/-- The name and the current value of what an assignment or a step writes to. -/
def target (e : Expr) : Eval (String × Value) :=
  match e.ident? with
  | none => fail (.invalidAssignment (.expression e.kind)) e.range
  | some ident => do
    match ← find? ident.name with
    | none => fail (.unresolvedSymbol ident.name) ident.range
    | some symbol =>
      match symbol.kind with
      | .var => return (ident.name, symbol.value)
      | .const => fail (.constantAssignment ident.name) e.range
      | .func => fail (.invalidAssignment (.function ident.name)) e.range

/-! ## Truth values, output, calls -/

/-- The truth value of a condition. -/
def condition (e : Expr) (v : Value) : Eval Bool :=
  match v.bool? with
  | some b => pure b
  | none => fail (.conditionNotBool v.kind) e.range

/-- The truth value of an operand of a logical operator. -/
def logicalOperand (op : Logical) (e : Expr) (v : Value) : Eval Bool :=
  match v.bool? with
  | some b => pure b
  | none => fail (.unsupportedOperator op.text v.kind) e.range

/-- Writes pieces of text. -/
def write (pieces : List String) : Eval Unit := fun env =>
  match env.sink.writeAll pieces with
  | (none, sink) => .ok () { env with sink := sink }
  | (some message, sink) => .error (.failed ⟨.output message, .unknown⟩) { env with sink := sink }

/-- Writes the values one after the other, then a line feed. -/
def print (args : List Value) : Eval Unit := fun env =>
  write (args.flatMap env.cutting.pieces ++ ["\n"]) env

/-- Runs a step one call deeper, if the limit allows. The depth is wound back also when
the step stops. -/
def calling {α : Type} (range : Range) (act : Eval α) : Eval α := fun env =>
  if env.maxCallDepth ≤ env.callDepth then
    .error (.failed ⟨.callDepthExceeded env.maxCallDepth, range⟩) env
  else
    match act { env with callDepth := env.callDepth + 1 } with
    | .ok a env => .ok a { env with callDepth := env.callDepth - 1 }
    | .error stop env => .error stop { env with callDepth := env.callDepth - 1 }

/-- Binds the arguments of a call to the parameters, after the slot for its result. -/
def bindArgs : List Variable → List Value → Eval Unit
  | param :: params, arg :: args => do
    add param.ident.name ⟨.var, arg⟩ param.range
    bindArgs params args
  | _, _ => pure ()

/-- A jump that leaves no loop. -/
def strayJump {α : Type} (jump : Jump) (range : Range) : Eval α :=
  fail (.jumpOutsideLoop jump) range

/-- The name of the slot that holds the result of a call. -/
def resultName : String := "return"

/-- The value that the name of the result is bound to, null if there is none. -/
def result : Eval Value := do
  match ← find? resultName with
  | some symbol => return symbol.value
  | none => return .null

end Eval

end Rill
