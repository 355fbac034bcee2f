import Rill.Error
import Rill.Run.Program

/-!
# From text to outcome

A text is run as a program or as a script, under settings that limit the call depth and with a sink
for its output. A run ends with a value, with an error, or because it has used up its steps.
-/

namespace Rill

/-- How a text is taken. -/
inductive Mode where
  | program
  | script
deriving DecidableEq, Repr

/-- How a run ends. -/
inductive Ending where
  | value (value : Value)
  | failed (error : Error)
  | exhausted

/-- What a run leaves. -/
structure Outcome where
  ending : Ending
  output : String

/-- The environment in which a run starts. -/
def Env.start (config : Config) (sink : Sink) : Env :=
  { sink := sink, maxCallDepth := config.maxCallDepth }

/-- The outcome of an evaluation. -/
def Eval.outcome (act : Eval Value) (env : Env) : Outcome :=
  match act env with
  | .ok v env => ⟨.value v, env.sink.text⟩
  | .error (.failed e) env => ⟨.failed (.runtime e), env.sink.text⟩
  | .error .exhausted env => ⟨.exhausted, env.sink.text⟩

/-- The steps of a text in a mode. -/
def Buffer.action (b : Buffer) (mode : Mode) (steps : Nat) : Except ParseError (Eval Value) :=
  match mode with
  | .program => b.program.map (Program.run steps)
  | .script => b.script.map (Script.run steps)

/-- Runs a text for at most so many steps. -/
def Buffer.run (b : Buffer) (mode : Mode) (config : Config) (sink : Sink) (steps : Nat) : Outcome :=
  match b.action mode steps with
  | .error e => ⟨.failed (.parse e), sink.text⟩
  | .ok act => act.outcome (.start config sink)

end Rill
