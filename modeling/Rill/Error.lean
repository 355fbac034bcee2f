import Rill.Config.Basic
import Rill.Grammar.Parser
import Rill.Source.Buffer
import Rill.Value.Fault

/-!
# Errors

Every error of the library, with the stage that raised it, its place and its wording.
-/

namespace Rill

/-- What can go wrong between reading a file and the end of its run. -/
inductive Error where
  | source (error : SourceError)
  | lex (error : LexError)
  | parse (error : ParseError)
  | runtime (error : RuntimeError)
  | config (error : ConfigError)
  | unreadable (path : String) (reason : ReadError)
deriving DecidableEq, Repr

/-- The stages of work on a text. -/
inductive Stage where
  | input
  | lexical
  | parse
  | runtime
  | config
deriving DecidableEq, Repr

/-- The name of a stage in messages. -/
def Stage.text : Stage → String
  | .input => "input"
  | .lexical => "syntax"
  | .parse => "parse"
  | .runtime => "runtime"
  | .config => "config"

namespace Error

/-- The stage that raised an error. A lexical fault met while parsing belongs to the
lexical stage. -/
def stage : Error → Stage
  | .source _ => .input
  | .lex _ => .lexical
  | .parse ⟨.lexical _, _⟩ => .lexical
  | .parse _ => .parse
  | .runtime _ => .runtime
  | .config _ => .config
  | .unreadable _ _ => .input

/-- The place of an error, unknown if it has none. -/
def range : Error → Range
  | .lex e => e.range
  | .parse e => e.range
  | .runtime e => e.range
  | .source _ | .config _ | .unreadable _ _ => .unknown

/-- The wording of an error. -/
def message : Error → String
  | .source e => e.message
  | .lex e => e.fault.message
  | .parse e => e.fault.message
  | .runtime e => e.fault.message
  | .config e => e.message
  | .unreadable path reason => s!"cannot read {path}: {reason.message}"

end Error

end Rill
