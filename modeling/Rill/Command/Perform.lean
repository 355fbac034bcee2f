import Rill.Command.Arguments
import Rill.Command.Report
import Rill.Config.Discovery
import Rill.Run.Outcome
import Rill.Syntax.Outline
import Rill.Token.Json
import Rill.Token.Scan
import Rill.Token.Filter

/-!
# Commands

What each command prints, which errors it reports, and whether it succeeds. All errors are
reported, each once; what was printed before an error stays printed. Notes tell which files were
read and how a run ended.
-/

namespace Rill

/-- The outline of a text in a mode. -/
def Buffer.outline (b : Buffer) : Mode → Except ParseError Outline
  | .program => b.program.map Program.outline
  | .script => b.script.map Script.outline

/-- The tokens of a text as lines. -/
def Token.listing (tokens : List Token) : String :=
  String.join (tokens.map fun t => s!"{t.range.text} {t.label}\n")

/-- The tokens of a text as JSON. -/
def Token.jsonListing (tokens : List Token) : String :=
  (Text.Json.array (tokens.map Token.json)).pretty ++ "\n"

/-- The mode that a switch asks for. -/
def Mode.ofSwitch (script : Bool) : Mode := if script then .script else .program

namespace Command

variable {m : Type → Type} [Monad m]

/-- Reads a file. -/
def readSource (fs : FileAccess m) (file : String) : m (Except Error Buffer) := do
  match ← fs.read file with
  | .ok text => return .ok ⟨file, text⟩
  | .error reason => return .error (.unreadable file reason)

/-- Works on the text of a file. -/
def withSource (fs : FileAccess m) (file : String) (work : Buffer → m Report) : m Report := do
  match ← readSource fs file with
  | .ok b => work b
  | .error e => return .failure e.message

/-- The notes on loading settings : that their file was read. -/
def configNotes (file : String) : Except ConfigError Config → List Note
  | .error (.unreadable ..) => []
  | _ => [⟨2, s!"loading config path={file}"⟩]

/-- Works on a text under its settings. -/
def withConfig (fs : FileAccess m) (named : Option String) (b : Buffer) (work : Config → Report) :
    m Report := do
  match ← Config.locate fs named b.name with
  | none => return work {}
  | some file =>
    let loaded ← Config.load fs file
    let report := match loaded with
      | .ok config => work config
      | .error e => .ofError b (.config e) ""
    return report.noted (configNotes file loaded)

/-- The notes on a run of a text : that it was parsed, and what it gave. -/
def runNotes (b : Buffer) : Ending → List Note
  | .failed (.parse _) => []
  | .value v => [⟨2, s!"parsed name={b.name} for a run"⟩, ⟨1, s!"finished result={v.display}"⟩]
  | _ => [⟨2, s!"parsed name={b.name} for a run"⟩]

/-- Runs a text. -/
def runBuffer (b : Buffer) (mode : Mode) (config : Config) : Report :=
  let outcome := b.run mode config {} Eval.plenty
  let report : Report := match outcome.ending with
    | .value _ => { output := outcome.output }
    | .failed e => .ofError b e outcome.output
    | .exhausted => { output := outcome.output, errors := ["out of steps"] }
  report.noted (runNotes b outcome.ending)

/-- Prints the outline of a text. -/
def outlineBuffer (b : Buffer) (mode : Mode) (showRanges : Bool) : Report :=
  .ofText b (match b.outline mode with
    | .ok o => .ok (o.text showRanges)
    | .error e => .error (.parse e))

/-- Prints the tokens of a text. -/
def tokensBuffer (b : Buffer) (all json : Bool) : Report :=
  .ofText b (match if all then b.allTokens else b.tokens with
    | .ok tokens => .ok (if json then Token.jsonListing tokens else Token.listing tokens)
    | .error e => .error (.lex e))

/-- The report of parsing a text as a program, which prints nothing. -/
def checkBuffer (b : Buffer) : Report :=
  .ofText b (match b.program with
    | .ok _ => .ok ""
    | .error e => .error (.parse e))

/-- Checks a file. -/
def checkFile (fs : FileAccess m) (file : String) : m Report :=
  withSource fs file fun b => return checkBuffer b

/-- Whether a path is checked when it is met below a directory. -/
def isSource (path : String) : Bool := Path.extension? path = some "rill"

/-- Checks everything below a directory that is named as a source file. -/
def checkDirectory (fs : FileAccess m) (path : String) : m Report := do
  let files := (← fs.walk path).filter isSource
  let reports ← files.mapM (checkFile fs)
  let failed := reports.filter fun r => !r.succeeded
  return {
    output := s!"Checked {files.length} files, {failed.length} with errors\n"
    errors := reports.flatMap Report.errors }

/-- Checks a file or a directory. -/
def check (fs : FileAccess m) (path : String) : m Report := do
  if ← fs.isFile path then
    let report ← checkFile fs path
    return if report.succeeded then { output := s!"No errors in {path}\n" } else report
  else if ← fs.isDir path then checkDirectory fs path
  else return .failure s!"{path} does not exist"

/-- Performs an action with the settings of a named file, or of the nearest one. -/
def act (fs : FileAccess m) (named : Option String) : Action → m Report
  | .run file script =>
    withSource fs file fun b => withConfig fs named b (runBuffer b (.ofSwitch script))
  | .ast file script noRanges =>
    withSource fs file fun b => withConfig fs named b fun config =>
      outlineBuffer b (.ofSwitch script) (config.showRanges && !noRanges)
  | .tokens file all json => withSource fs file fun b => return tokensBuffer b all json
  | .check path => check fs (path.getD ".")

/-- Performs a command. -/
def perform (fs : FileAccess m) (c : Command) : m Report := do
  return (← act fs c.config c.action).heard c.verbosity

end Command

/-- The name and version of the program. -/
def versionText : String := "rill 0.1.0"

/-- How the program ends when arguments lead to no command. -/
def Reply.exit : Reply → Exit
  | .version => ⟨{ output := versionText ++ "\n" }, 0⟩
  | .help => ⟨{}, 0⟩
  | .misuse why => ⟨{ notes := [⟨0, s!"error: {why.message}"⟩] }, 2⟩

/-- Runs the program on arguments. -/
def Command.execute {m : Type → Type} [Monad m] (fs : FileAccess m) (args : List String) :
    m Exit := do
  match Command.read args with
  | .ok c => return (← c.perform fs).exit
  | .error reply => return reply.exit

end Rill
