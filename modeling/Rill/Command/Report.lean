import Rill.Diagnostic

/-!
# Reports

What a command leaves : its output, its errors, and notes for whoever asked for them. Errors and
notes go to the error stream as texts of one line or more; an error starts with a mark.
`Report.errorLines` counts the lines of the stream that start with the mark. It is the number of
errors as long as no text has a line of its own that starts so.
-/

namespace Rill

/-- A remark on the work. `level` says how often a run must be asked to be verbose for
it to be heard. -/
structure Note where
  level : Nat
  text : String
deriving DecidableEq, Repr

/-- What a command leaves : its output, the texts of its errors, and its notes. -/
structure Report where
  output : String := ""
  errors : List String := []
  notes : List Note := []
deriving DecidableEq, Repr

/-- A diagnostic of a text with a name, as it is shown. All lines of the message but the first are
indented. The name follows if a part of the text is shown. -/
def Diagnostic.text (d : Diagnostic) (name : String) : String :=
  let message := "\n  ".intercalate (d.message.splitOn "\n")
  if d.hasSnippet then s!"{message}\n  [{name}]" else message

namespace Report

/-- Whether a command succeeded. -/
def succeeded (r : Report) : Bool := r.errors.isEmpty

/-- The report of a single error. -/
def failure (message : String) : Report := { errors := [message] }

/-- The report of an error in a buffer, after some output. -/
def ofError (b : Buffer) (e : Error) (output : String) : Report :=
  { output := output, errors := [(Diagnostic.ofError e b).text b.name] }

/-- The report of work on a buffer that prints a text at its end. -/
def ofText (b : Buffer) : Except Error String → Report
  | .ok text => { output := text }
  | .error e => ofError b e ""

/-- The report with more notes before its own. -/
def noted (r : Report) (notes : List Note) : Report :=
  { r with notes := notes ++ r.notes }

/-- The report with the notes that a verbosity lets through. -/
def heard (r : Report) (verbosity : Nat) : Report :=
  { r with notes := r.notes.filter (·.level ≤ verbosity) }

/-- What an error starts with on the error stream. -/
def errorMark : String := "ERROR: "

/-- The texts for the error stream. -/
def messages (r : Report) : List String :=
  r.notes.map Note.text ++ r.errors.map (errorMark ++ ·)

/-- The lines of the error stream. -/
def streamLines (r : Report) : List String :=
  r.messages.flatMap (·.splitOn "\n")

/-- The number of lines of the error stream that start with the mark of an error. -/
def errorLines (r : Report) : Nat :=
  (r.streamLines.filter (errorMark.toList.isPrefixOf ·.toList)).length

end Report

/-- How the program ends : its report and its exit code. -/
structure Exit where
  report : Report
  code : UInt8
deriving DecidableEq, Repr

/-- How the program ends after a command. -/
def Report.exit (r : Report) : Exit :=
  ⟨r, if r.succeeded then 0 else 255⟩

end Rill
