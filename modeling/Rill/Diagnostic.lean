import Rill.Error

/-!
# Diagnostics

A diagnostic presents an error next to the text in which it arose : a message with the place, the
bytes to point at with a label for them, and advice for some errors. An error without a place in the
text has a message and perhaps advice, and points at nothing.
-/

namespace Rill

/-- Bytes of a text. -/
structure Span where
  offset : Nat
  length : Nat
deriving DecidableEq, Repr

/-- The bytes of a range. A range whose stop is not in the text after its start is
taken as empty. -/
def Buffer.span? (b : Buffer) (range : Range) : Option Span :=
  if range.isUnknown then none
  else
    match b.offset? range.start with
    | none => none
    | some start =>
      let stop := max ((b.offset? range.stop).getD start) start
      some ⟨start, stop - start⟩

/-- The label of a lexical fault. -/
def LexFault.label : LexFault → String
  | .unknownEscape _ => "unknown escape"
  | .unrecognized _ => "not part of any token"
  | _ => "literal starts here"

/-- The label of a parse fault. -/
def ParseFault.label : ParseFault → String
  | .lexical fault => fault.label
  | .expected what _ => s!"expected {what}"
  | .expectedExpr _ => "expected an expression"
  | .expectedDeclaration _ => "expected a declaration"
  | .invalidNumber _ => "invalid number"
  | fault => fault.message

/-- The label of a runtime fault. -/
def RuntimeFault.label : RuntimeFault → String
  | .unresolvedSymbol _ => "not found in any scope"
  | .duplicateSymbol _ => "already defined"
  | .differentTypes _ lhs rhs => s!"{lhs.text} and {rhs.text}"
  | .argumentCount _ expected _ => s!"expected {expected} args"
  | fault => fault.message

/-- The label of an error. -/
def Error.label : Error → String
  | .lex e => e.fault.label
  | .parse e => e.fault.label
  | .runtime e => e.fault.label
  | e => e.message

/-- Advice on a lexical fault. -/
def LexFault.help? : LexFault → Option String
  | .unknownEscape _ => some "supported escapes are \\n \\t \\r \\0 \\\\ \\' and \\\""
  | _ => none

/-- Advice on a runtime fault. -/
def RuntimeFault.help? : RuntimeFault → Option String
  | .unresolvedSymbol _ => some "check spelling or declare the variable"
  | .duplicateSymbol _ => some "rename or remove one of the definitions"
  | .conditionNotBool _ => some "compare explicitly, for example `x != 0`"
  | .noMainFunction => some "declare `func main() \x7b ... \x7d`"
  | .callDepthExceeded _ =>
    some "raise [interpreter] max_call_depth in rill.toml if the recursion is intended"
  | _ => none

/-- Advice on an error. -/
def Error.help? : Error → Option String
  | .lex e => e.fault.help?
  | .parse ⟨.lexical fault, _⟩ => fault.help?
  | .parse ⟨.expectedDeclaration _, _⟩ =>
    some "a program holds only declarations; use `rill run --script` for statements"
  | .runtime e => e.fault.help?
  | _ => none

/-- What is shown of an error. -/
structure Diagnostic where
  message : String
  span : Option Span
  label : Option String
  help : Option String
deriving DecidableEq, Repr

namespace Diagnostic

/-- The diagnostic of an error in a buffer. -/
def ofError (e : Error) (b : Buffer) : Diagnostic :=
  let span := b.span? e.range
  let place := if span.isSome then s!" at {e.range.start.text}" else ""
  { message := s!"{e.stage.text} error{place}: {e.message}"
    span := span
    label := span.map fun _ => e.label
    help := e.help? }

/-- Whether a part of the text is shown. -/
def hasSnippet (d : Diagnostic) : Bool := d.span.isSome

end Diagnostic

end Rill
