/-!
# Arguments

The arguments of the command line, first cut into marks (`marks`) and then read as a command
(`Command.read`). Options may stand before and after the name of the command and its operand; `--`
makes operands of all that follows it.
-/

namespace Rill

/-- What to do. -/
inductive Action where
  | run (file : String) (script : Bool)
  | ast (file : String) (script noRanges : Bool)
  | tokens (file : String) (all json : Bool)
  | check (path : Option String)
deriving DecidableEq, Repr

/-- What to do, with the options that every action shares. -/
structure Command where
  config : Option String
  verbosity : Nat
  action : Action
deriving DecidableEq, Repr

/-- What is wrong with arguments. -/
inductive Misuse where
  | noCommand
  | unknownCommand (name : String)
  | noOperand
  | unexpectedOperand (text : String)
  | unknownOption (option : String) (inCommand : Bool)
  | repeatedOption (option : String)
  | noValue (option : String)
  | unexpectedValue (option value : String)
deriving DecidableEq, Repr

/-- The wording of a misuse. Where a command takes an operand, a hint tells how to give it one that
looks like an option. -/
def Misuse.message : Misuse → String
  | .noCommand => "a command is required but none was given"
  | .unknownCommand name => s!"unrecognized command '{name}'"
  | .noOperand => "a path is required but none was given"
  | .unexpectedOperand text => s!"unexpected argument '{text}' found"
  | .unknownOption option inCommand =>
    let hint := if inCommand then s!"\n\n  to pass '{option}' as a path, use '-- {option}'" else ""
    s!"unexpected argument '{option}' found{hint}"
  | .repeatedOption option => s!"'{option}' cannot be used more than once"
  | .noValue option => s!"'{option}' requires a value but none was given"
  | .unexpectedValue option value => s!"unexpected value '{value}' for '{option}' found"

/-- Why arguments lead to no command. -/
inductive Reply where
  | version
  | help
  | misuse (why : Misuse)
deriving DecidableEq, Repr

/-- A part of the arguments. An operand before any `--` knows the arguments after it, because it may
be the name of a command that reads them in its own way. -/
inductive Mark where
  | config (value : String)
  | verbose
  | help
  | version
  | switch (name : String)
  | valued (name value : String)
  | operand (text : String) (after : List String)
  | trailing (text : String)
  | unknown (option : String)
  | incomplete (option : String)
deriving DecidableEq, Repr

namespace Mark

/-- The mark of a letter after a single dash. -/
def ofLetter : Char → Mark
  | 'v' => .verbose
  | 'h' => .help
  | 'V' => .version
  | c => .unknown (String.ofList ['-', c])

/-- The mark of a name after two dashes, other than the one that takes a value. -/
def ofName : String → Mark
  | "verbose" => .verbose
  | "help" => .help
  | "version" => .version
  | name => .switch name

end Mark

/-- The shapes of an argument. -/
inductive Shape where
  | divider
  | long (name : String) (value : Option String)
  | short (letters : List Char)
  | plain

/-- The shape of an argument. A lone dash is plain. -/
def Shape.ofChars : List Char → Shape
  | ['-', '-'] => .divider
  | '-' :: '-' :: rest =>
    let name := String.ofList (rest.takeWhile (· != '='))
    match rest.dropWhile (· != '=') with
    | [] => .long name none
    | _ :: value => .long name (some (String.ofList value))
  | '-' :: c :: rest => .short (c :: rest)
  | _ => .plain

/-- Whether an argument is plain. -/
def Shape.isPlain : Shape → Bool
  | .plain => true
  | _ => false

/-- The marks of arguments. -/
def marks : List String → List Mark
  | [] => []
  | arg :: rest =>
    match Shape.ofChars arg.toList with
    | .divider => rest.map .trailing
    | .short letters => letters.map Mark.ofLetter ++ marks rest
    | .long "config" (some value) => .config value :: marks rest
    | .long "config" none =>
      match rest with
      | value :: rest =>
        if (Shape.ofChars value.toList).isPlain then .config value :: marks rest
        else [.incomplete "--config"]
      | [] => [.incomplete "--config"]
    | .long name none => .ofName name :: marks rest
    | .long name (some value) => [.valued name value]
    | .plain => .operand arg rest :: marks rest

/-- The options and operands found so far at one level of the command line. -/
structure Found where
  config : Option String := none
  verbosity : Nat := 0
  switches : List String := []
  operand : Option String := none

namespace Found

/-- Enters an operand. There is at most one, and it is not empty. -/
def enterOperand (found : Found) (text : String) : Except Reply Found :=
  if found.operand.isSome then .error (.misuse (.unexpectedOperand text))
  else if text = "" then .error (.misuse .noOperand)
  else .ok { found with operand := some text }

/-- Enters a mark, where the given switches are known. Everything but `-v` may be given only once,
and values are not empty. Switches are known only after the name of a command. -/
def enter (known : Option (List String)) (found : Found) : Mark → Except Reply Found
  | .config value =>
    if value = "" then .error (.misuse (.noValue "--config"))
    else if found.config.isSome then .error (.misuse (.repeatedOption "--config"))
    else .ok { found with config := some value }
  | .verbose => .ok { found with verbosity := found.verbosity + 1 }
  | .help => .error .help
  | .version => .error (.misuse (.unknownOption "--version" known.isSome))
  | .switch name =>
    if !(known.getD []).contains name then
      .error (.misuse (.unknownOption ("--" ++ name) known.isSome))
    else if found.switches.contains name then .error (.misuse (.repeatedOption ("--" ++ name)))
    else .ok { found with switches := name :: found.switches }
  | .valued name value =>
    if (known.getD [] ++ ["verbose", "help"]).contains name then
      .error (.misuse (.unexpectedValue ("--" ++ name) value))
    else .error (.misuse (.unknownOption ("--" ++ name) known.isSome))
  | .operand text _ => found.enterOperand text
  | .trailing text => found.enterOperand text
  | .unknown option => .error (.misuse (.unknownOption option known.isSome))
  | .incomplete option => .error (.misuse (.noValue option))

/-- Whether a switch was given. -/
def has (found : Found) (name : String) : Bool := found.switches.contains name

/-- The operand, if it was given. -/
def needed (found : Found) : Except Reply String :=
  match found.operand with
  | some text => .ok text
  | none => .error (.misuse .noOperand)

end Found

namespace Action

/-- The switches of an action, by its name. -/
def switches? : String → Option (List String)
  | "run" => some ["script"]
  | "ast" => some ["script", "no-ranges"]
  | "tokens" => some ["all", "json"]
  | "check" => some []
  | _ => none

/-- The action of a name with what was found after the name. -/
def ofFound (name : String) (found : Found) : Except Reply Action :=
  match name with
  | "run" => return .run (← found.needed) (found.has "script")
  | "ast" => return .ast (← found.needed) (found.has "script") (found.has "no-ranges")
  | "tokens" => return .tokens (← found.needed) (found.has "all") (found.has "json")
  | "check" => .ok (.check found.operand)
  | other => .error (.misuse (.unknownCommand other))

end Action

/-- Whether a name is that of a command, the one for help included. -/
def Action.isName (name : String) : Bool := (Action.switches? name).isSome || name = "help"

/-- The reply to a request for help on a command. The arguments are names, whatever they look like,
and no command has commands of its own. -/
def Reply.toHelp : List String → Reply
  | [] => .help
  | name :: rest =>
    if Action.isName name then
      match rest with
      | [] => .help
      | next :: _ => .misuse (.unknownCommand next)
    else .misuse (.unknownCommand name)

namespace Command

/-- The command of a name, with the options before the name and the marks after it. An option after
the name wins over the same one before it. -/
def ofName (name : String) (before : Found) (marks : List Mark) : Except Reply Command :=
  match Action.switches? name with
  | none => .error (.misuse (.unknownCommand name))
  | some known => do
    let found ← marks.foldlM (Found.enter (some known)) {}
    let action ← Action.ofFound name found
    let verbosity := if found.verbosity = 0 then before.verbosity else found.verbosity
    return ⟨found.config <|> before.config, verbosity, action⟩

/-- The command of marks, with the options found before them. -/
def ofMarks (before : Found) : List Mark → Except Reply Command
  | [] => .error (.misuse .noCommand)
  | .operand name after :: rest =>
    if name = "help" then .error (.toHelp after) else ofName name before rest
  | .trailing text :: _ => .error (.misuse (.unknownCommand text))
  | .version :: _ => .error .version
  | mark :: rest => do ofMarks (← before.enter none mark) rest

/-- The command of arguments. -/
def read (args : List String) : Except Reply Command :=
  ofMarks {} (marks args)

end Command

end Rill
