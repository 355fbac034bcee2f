import Rill.Value.Basic

/-!
# Runtime faults

What can go wrong while a program runs. A fault says what happened; an error adds where. Operations
on values know no place, so their faults are located by the expression that applied them
(`RuntimeError.locate`).
-/

namespace Rill

/-- A jump that only makes sense inside a loop or a switch. -/
inductive Jump where
  | break
  | continue
deriving DecidableEq, Repr

/-- The word of a jump. -/
def Jump.text : Jump → String
  | .break => "break"
  | .continue => "continue"

/-- What an assignment cannot write to. -/
inductive Target where
  | expression (kind : ExprKind)
  | function (name : String)
deriving DecidableEq, Repr

/-- The name of a target in messages. -/
def Target.text : Target → String
  | .expression kind => s!"{kind.text} expression"
  | .function name => s!"function '{name}'"

/-- Why a run ends early. -/
inductive RuntimeFault where
  | duplicateSymbol (name : String)
  | unresolvedSymbol (name : String)
  | unknownDeclaration (kind : DeclKind)
  | noMainFunction
  | differentTypes (op : String) (lhs rhs : ValueKind)
  | unsupportedOperator (op : String) (kind : ValueKind)
  | notAFunction (kind : ValueKind)
  | argumentCount (name : String) (expected found : Nat)
  | divisionByZero
  | conditionNotBool (kind : ValueKind)
  | invalidAssignment (target : Target)
  | constantAssignment (name : String)
  | indexOutOfRange (index : Int64) (length : Nat)
  | unknownMember (name : String) (kind : ValueKind)
  | jumpOutsideLoop (jump : Jump)
  | callDepthExceeded (limit : Nat)
  | output (reason : String)
deriving DecidableEq, Repr

namespace RuntimeFault

/-- The wording of a fault. -/
def message : RuntimeFault → String
  | .duplicateSymbol name => s!"symbol '{name}' is already defined in this scope"
  | .unresolvedSymbol name => s!"unresolved symbol '{name}'"
  | .unknownDeclaration kind => s!"{kind.text} declarations are not supported here"
  | .noMainFunction => "no main function"
  | .differentTypes op lhs rhs =>
    s!"operands of '{op}' have different types: {lhs.text} and {rhs.text}"
  | .unsupportedOperator op kind => s!"operator '{op}' is not supported for {kind.text}"
  | .notAFunction kind => s!"cannot call a value of type {kind.text}: not a function"
  | .argumentCount name expected found =>
    s!"function '{name}' takes {expected} argument(s) but {found} were given"
  | .divisionByZero => "division by zero"
  | .conditionNotBool kind => s!"condition is not a bool but {kind.text}"
  | .invalidAssignment target => s!"cannot assign to {target.text}"
  | .constantAssignment name => s!"cannot assign to constant '{name}'"
  | .indexOutOfRange index length =>
    s!"index {index.toInt} is out of range for a string of length {length}"
  | .unknownMember name kind => s!"{kind.text} has no member '{name}'"
  | .jumpOutsideLoop jump => s!"'{jump.text}' outside of a loop or switch"
  | .callDepthExceeded limit => s!"call depth exceeded the limit of {limit}"
  | .output reason => s!"failed to write output: {reason}"

/-- Whether a fault happens at a place of the program. -/
def hasPlace : RuntimeFault → Bool
  | .noMainFunction | .output _ => false
  | _ => true

end RuntimeFault

/-- A fault and where it happened. -/
structure RuntimeError where
  fault : RuntimeFault
  range : Range
deriving DecidableEq, Repr

/-- Gives an error a place, unless it has one or can have none. -/
def RuntimeError.locate (e : RuntimeError) (range : Range) : RuntimeError :=
  if e.fault.hasPlace && e.range.isUnknown then { e with range := range } else e

/-- An error at a place. -/
def RuntimeFault.at (fault : RuntimeFault) (range : Range) : RuntimeError :=
  RuntimeError.locate ⟨fault, .unknown⟩ range

end Rill
