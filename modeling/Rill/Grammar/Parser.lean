import Rill.Syntax.Tree
import Rill.Token.Filter

/-!
# Parsers

A parser looks at one token of a sequence at a time and keeps what parsing builds up besides the
tree : the names that occur, the declaration scopes, the scope it is in and the number of the next
declaration. `Parse` is a step of parsing. A step may fail, and what it did to the parser until then
stays done, so a parser can be used after a failure.

When the token after the current one turns out to be a lexical fault, the step fails with that
fault, the current token stays, and nothing follows it any more.
-/

namespace Rill

/-- Where an operator stands. -/
inductive OperatorPlace where
  | between
  | before
  | after
deriving DecidableEq, Repr

/-- The name of a place in messages. -/
def OperatorPlace.text : OperatorPlace → String
  | .between => "binary"
  | .before => "prefix"
  | .after => "postfix"

/-- Why a text cannot be parsed. -/
inductive ParseFault where
  | expected (what found : String)
  | expectedExpr (found : String)
  | expectedDeclaration (found : String)
  | invalidNumber (text : String)
  | unknownOperator (text : String) (place : OperatorPlace)
  | lexical (fault : LexFault)
  | stalled
deriving DecidableEq, Repr

/-- The wording of a parse fault. -/
def ParseFault.message : ParseFault → String
  | .expected what found => s!"expected {what}, found {found}"
  | .expectedExpr found => s!"expected expression, found {found}"
  | .expectedDeclaration found => s!"expected declaration, found {found}"
  | .invalidNumber text => s!"invalid number literal '{text}'"
  | .unknownOperator text place => s!"'{text}' is not a known {place.text} operator"
  | .lexical fault => fault.message
  | .stalled => "parsing made no progress"

/-- A parse fault and the range at which it was found. -/
structure ParseError where
  fault : ParseFault
  range : Range
deriving DecidableEq, Repr

/-- A lexical error met while parsing. -/
def LexError.toParseError (e : LexError) : ParseError :=
  ⟨.lexical e.fault, e.range⟩

/-- The names that occur in a text, each once, in the order in which they were met. -/
structure NameTable where
  names : List String
deriving DecidableEq, Repr

namespace NameTable

/-- The names that are known before any text is read. -/
def initial : NameTable := ⟨["return", "main", "print"]⟩

/-- Whether a name occurs. -/
def contains (t : NameTable) (name : String) : Bool := t.names.contains name

/-- Enters a name. -/
def insert (t : NameTable) (name : String) : NameTable :=
  if t.contains name then t else ⟨t.names ++ [name]⟩

/-- The number of names. -/
def size (t : NameTable) : Nat := t.names.length

end NameTable

/-- A parser in the middle of its work. -/
structure Parser where
  current : Option Token
  upcoming : Filter
  previousEnd : Location
  sourceEnd : Location
  names : NameTable
  scopes : ScopeTree
  scope : ScopeId
  nextDecl : Nat
deriving Repr

namespace Parser

/-- The token of the next item, or its fault. -/
def tokenOf : Option Item → Except ParseError (Option Token)
  | none => .ok none
  | some (.ok t) => .ok (some t)
  | some (.error e) => .error e.toParseError

/-- A parser at the first token of a buffer. -/
def start (b : Buffer) : Except ParseError Parser := do
  let (item, upcoming) := (Filter.ofItems Filter.trivia b.items).next
  let current ← tokenOf item
  return {
    current := current
    upcoming := upcoming
    previousEnd := .origin
    sourceEnd := (b.location? b.size).getD .origin
    names := .initial
    scopes := .empty
    scope := .global
    nextDecl := 0 }

variable (p : Parser)

/-- Whether no token is left. -/
def isEmpty : Bool := p.current.isNone

/-- The range of the current token, or the empty one at the end of the source. -/
def place : Range :=
  match p.current with
  | some t => t.range
  | none => ⟨p.sourceEnd, p.sourceEnd⟩

/-- The current token as messages show it. -/
def found : String :=
  match p.current with
  | some t => t.label
  | none => "end of input"

/-- Whether the current token has a kind. -/
def isKind (kind : TokenKind) : Bool := p.current.any (·.kind == kind)

/-- Whether the current token is a piece of punctuation. -/
def isPunctuation (text : String) : Bool := p.current.any (·.isPunctuation text)

/-- Whether the current token is an identifier with a name. -/
def isIdentifier (name : String) : Bool := p.current.any (·.isIdentifier name)

/-- Whether the token after the current one is an identifier. -/
def identifierFollows : Bool :=
  match p.upcoming.peek with
  | some (.ok t) => t.kind == .identifier
  | _ => false

/-- The text of the current token if it is punctuation. -/
def operator? : Option String :=
  match p.current with
  | some ⟨.punctuation text, _⟩ => some text
  | _ => none

/-- The text by which the current token may select a form of statement. -/
def formWord? : Option String :=
  match p.current with
  | some ⟨.punctuation text, _⟩ => some text
  | some ⟨.identifier text, _⟩ => some text
  | _ => none

/-- An error at the current token. -/
def expected (what : String) : ParseError :=
  ⟨.expected what p.found, p.place⟩

/-- A bound on how often parsing can nest and repeat on what is left of the tokens. -/
def fuel : Nat := 8 * (p.upcoming.source.length + 3)

end Parser

/-- A step of parsing. -/
abbrev Parse := EStateM ParseError Parser

namespace Parse

/-- Fails because nesting or repetition exceeded its bound. -/
def stalled {α : Type} : Parse α := fun p => .error ⟨.stalled, p.place⟩ p

/-- Fails because something else was expected at the current token. -/
def failExpected {α : Type} (what : String) : Parse α := fun p => .error (p.expected what) p

/-- Moves to the next token and gives the one that was current. -/
def advance : Parse (Option Token) := fun p =>
  let (item, rest) := p.upcoming.next
  match Parser.tokenOf item with
  | .error e => .error e { p with upcoming := rest }
  | .ok token =>
    let stop := match p.current with
      | some t => t.range.stop
      | none => p.previousEnd
    .ok p.current { p with current := token, upcoming := rest, previousEnd := stop }

/-- Takes the current token if it passes a test. -/
def takeIf (accept : Token → Bool) : Parse (Option Token) := do
  if (← get).current.any accept then advance else return none

/-- Takes a piece of punctuation if it is current, and says whether it was. -/
def accept (text : String) : Parse Bool := do
  if (← get).isPunctuation text then
    let _ ← advance
    return true
  else return false

/-- Takes a token that passes a test, or fails. -/
def require (test : Token → Bool) (what : String) : Parse Token := do
  match ← takeIf test with
  | some t => return t
  | none => failExpected what

/-- Takes a piece of punctuation. -/
def punctuation (text : String) : Parse Token :=
  require (·.isPunctuation text) s!"'{text}'"

/-- Takes an identifier that serves as a word of the grammar. -/
def word (text : String) : Parse Token :=
  require (·.isIdentifier text) s!"'{text}'"

/-- Fails unless the current token is an identifier. -/
def checkIdentifier : Parse PUnit := do
  if (← get).isKind .identifier then return ⟨⟩ else failExpected "identifier"

/-- Takes an identifier and enters its name. -/
def identifier : Parse Ident := do
  checkIdentifier
  match ← advance with
  | some t =>
    modify fun p => { p with names := p.names.insert t.lexeme.text }
    return ⟨t.lexeme.text, t.range⟩
  | none => failExpected "identifier"

/-- Enters a declaration in the current scope. -/
def declare (ident : Ident) : Parse DeclId := do
  let p ← get
  let id : DeclId := ⟨p.nextDecl⟩
  set { p with nextDecl := p.nextDecl + 1, scopes := p.scopes.add p.scope ident.name id }
  return id

/-- Runs a step in a scope; afterwards the scope is the one before, also if the step fails. -/
def within {α : Type} (scope : ScopeId) (act : Parse α) : Parse α := fun p =>
  match act { p with scope := scope } with
  | .ok a q => .ok a { q with scope := p.scope }
  | .error e q => .error e { q with scope := p.scope }

/-- Runs a step in a new scope inside the current one. -/
def opening {α : Type} (kind : ScopeKind) (owner : Option DeclId) (act : ScopeId → Parse α) :
    Parse α := do
  let p ← get
  let (id, scopes) := p.scopes.push kind p.scope owner
  set { p with scopes := scopes }
  within id (act id)

/-- A type annotation, if there is one : the word of a builtin type, or an identifier
before another. -/
def typeRef? : Parse (Option TypeRef) := do
  let p ← get
  match p.current with
  | some ⟨.keyword (.type t), _⟩ =>
    let _ ← advance
    return some (.builtin t)
  | some ⟨.identifier _, _⟩ =>
    if p.identifierFollows then return some (.named (← identifier)) else return none
  | _ => return none

/-- Items until a test holds of the parser. -/
def itemsUntil {α : Type} (stop : Parser → Bool) (item : Parse α) : Nat → Parse (List α)
  | 0 => stalled
  | n + 1 => do
    if stop (← get) then return []
    let x ← item
    let rest ← itemsUntil stop item n
    return x :: rest

/-- At least one item, with separators in between, until a test holds of the parser. -/
def separatedItems {α : Type} (item : Parse α) (stop : Parser → Bool) (separator : Parse Bool) :
    Nat → Parse (List α)
  | 0 => stalled
  | n + 1 => do
    let x ← item
    if stop (← get) then return [x]
    if ← separator then
      let rest ← separatedItems item stop separator n
      return x :: rest
    else failExpected "separator"

/-- Items with separators in between, until a test holds of the parser. -/
def separated {α : Type} (item : Parse α) (stop : Parser → Bool) (separator : Parse Bool)
    (fuel : Nat) :
    Parse (List α) := do
  if stop (← get) then return [] else separatedItems item stop separator fuel

end Parse

end Rill
