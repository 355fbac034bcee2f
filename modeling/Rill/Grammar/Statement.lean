import Rill.Grammar.Expression

/-!
# Statements and declarations

The forms of statements of the language, each a step of parsing that starts at the word or mark of
the form, and `statement`, which chooses the form of the current token. Without a form a statement
is an expression and a semicolon.

Names are entered in the scope as soon as they are read, so a function's name is known in its own
body and a variable's in its own initial value.
-/

namespace Rill.Parse

/-- Whether a block ends here, or the text does. -/
def blockEnds (p : Parser) : Bool := p.isPunctuation "\x7d" || p.isEmpty

/-- Statements in braces, in a scope that is already open. -/
def blockIn (k : Nested) (scope : ScopeId) : Parse Block := do
  let left ← punctuation "\x7b"
  let (stmts, right) ← within scope do
    let stmts ← itemsUntil blockEnds k.stmt k.fuel
    let right ← punctuation "\x7d"
    return (stmts, right)
  return ⟨stmts, scope, left.range.merge right.range⟩

/-- Statements in braces, in a scope of their own. -/
def block (k : Nested) : Parse Block :=
  opening .block none (blockIn k)

/-- A statement that must be a declaration. Another statement is refused at its first token. -/
def declaration (stmt : Parse Stmt) : Parse Decl := do
  let p ← get
  match ← stmt with
  | .decl d _ => return d
  | _ => throw ⟨.expectedDeclaration p.found, p.place⟩

/-- The statement that a declaration makes. -/
def declStmt (d : Decl) : Stmt := .decl d d.range

/-- The initial value of a variable or a constant, which a constant must have. -/
def initialValue (k : Nested) (constant : Bool) : Parse (Option Expr) := do
  if ← accept "=" then some <$> k.expr
  else if constant then failExpected "'=' after constant name"
  else return none

/-- A variable or a constant. -/
def variableDecl (k : Nested) (constant : Bool) : Parse Variable := do
  let start ← word (if constant then "const" else "var")
  let type ← typeRef?
  let ident ← identifier
  let id ← declare ident
  let init ← initialValue k constant
  let stop ← punctuation ";"
  return {
    id := id, ident := ident, type := type, init := init, constant := constant
    scope := (← get).scope, range := start.range.merge stop.range }

/-- The range of a parameter : from a named type to the name, or the name alone. -/
def paramRange (type : Option TypeRef) (ident : Ident) : Range :=
  match type with
  | some (.named t) => t.range.merge ident.range
  | _ => ident.range

/-- A parameter. -/
def param : Parse Variable := do
  let type ← typeRef?
  let ident ← identifier
  let id ← declare ident
  return {
    id := id, ident := ident, type := type, init := none, constant := false, scope := (← get).scope
    range := paramRange type ident }

/-- The parameters of a function, in parentheses. -/
def params (k : Nested) : Parse (List Variable) := do
  let _ ← punctuation "("
  let vars ← separated param (·.isPunctuation ")") (accept ",") k.fuel
  let _ ← punctuation ")"
  return vars

/-- A function. -/
def funcDecl (k : Nested) : Parse Func := do
  let start ← word "func"
  let type ← typeRef?
  let ident ← identifier
  let id ← declare ident
  let scope := (← get).scope
  opening .function (some id) fun own => do
    let vars ← params k
    let body ← blockIn k own
    return {
      id := id, ident := ident, type := type, params := vars, body := body, scope := scope
      ownScope := own, range := start.range.merge body.range }

/-- The word of a group of declarations. -/
def groupWord : GroupKind → String
  | .classGroup => "class"
  | .namespaceGroup => "namespace"

/-- Declarations in braces, and the range of the braces. -/
def members (k : Nested) : Parse (List Decl × Range) := do
  let left ← punctuation "\x7b"
  let decls ← itemsUntil blockEnds (declaration k.stmt) k.fuel
  let right ← punctuation "\x7d"
  return (decls, left.range.merge right.range)

/-- A class or a namespace. -/
def groupDecl (kind : GroupKind) (k : Nested) : Parse Group := do
  let start ← word (groupWord kind)
  let ident ← identifier
  let id ← declare ident
  let scope := (← get).scope
  opening (.group kind) (some id) fun own => do
    let (decls, range) ← members k
    return {
      kind := kind, id := id, ident := ident, members := decls, membersRange := range
      scope := scope, ownScope := own, range := start.range.merge range }

/-- An expression in parentheses. -/
def condition (k : Nested) : Parse Expr := do
  let _ ← punctuation "("
  let e ← k.expr
  let _ ← punctuation ")"
  return e

/-- An `if` with or without an `else`. -/
def ifForm : Form := fun k => do
  let start ← word "if"
  let c ← condition k
  let whenTrue ← k.stmt
  let range := start.range.merge whenTrue.range
  if (← get).isIdentifier "else" then
    let _ ← advance
    let whenFalse ← k.stmt
    return .ifElse c whenTrue (some whenFalse) (range.merge whenFalse.range)
  else return .ifElse c whenTrue none range

/-- A `while` loop. -/
def whileForm : Form := fun k => do
  let start ← word "while"
  let c ← condition k
  let body ← k.stmt
  return .whileDo c body (start.range.merge body.range)

/-- A `do` loop. -/
def doForm : Form := fun k => do
  let start ← word "do"
  let body ← k.stmt
  let _ ← word "while"
  let c ← condition k
  let stop ← punctuation ";"
  return .doWhile body c (start.range.merge stop.range)

/-- An expression unless a piece of punctuation stands in its place. -/
def unlessAt (text : String) (k : Nested) : Parse (Option Expr) := do
  if (← get).isPunctuation text then return none else some <$> k.expr

/-- The first part of a `for` loop, up to its semicolon. -/
def forInit (k : Nested) : Parse (Option Stmt) := do
  if ← accept ";" then return none else some <$> k.stmt

/-- A `for` loop. It has a scope of its own around all its parts. -/
def forForm : Form := fun k => do
  let start ← word "for"
  opening .block none fun scope => do
    let _ ← punctuation "("
    let init ← forInit k
    let c ← unlessAt ";" k
    let _ ← punctuation ";"
    let step ← unlessAt ")" k
    let _ ← punctuation ")"
    let body ← k.stmt
    return .forLoop init c step body scope (start.range.merge body.range)

/-- A `switch`. -/
def switchForm : Form := fun k => do
  let start ← word "switch"
  let subject ← condition k
  let body ← block k
  return .switch subject body (start.range.merge body.range)

/-- A `case` label. -/
def caseForm : Form := fun k => do
  let start ← word "case"
  let value ← k.expr
  let stop ← punctuation ":"
  return .caseLabel value (start.range.merge stop.range)

/-- A word and a mark, and the range of both. -/
def wordThen (text mark : String) : Parse Range := do
  let start ← word text
  let stop ← punctuation mark
  return start.range.merge stop.range

/-- A `return` with or without a value. -/
def returnForm : Form := fun k => do
  let start ← word "return"
  let value ← unlessAt ";" k
  let stop ← punctuation ";"
  return .return value (start.range.merge stop.range)

/-- The statement forms of the language. -/
def forms : List (String × Form) := [
  ("var", fun k => (fun v => declStmt (.var v)) <$> variableDecl k false),
  ("const", fun k => (fun v => declStmt (.var v)) <$> variableDecl k true),
  ("func", fun k => (fun f => declStmt (.func f)) <$> funcDecl k),
  ("class", fun k => (fun g => declStmt (.group g)) <$> groupDecl .classGroup k),
  ("namespace", fun k => (fun g => declStmt (.group g)) <$> groupDecl .namespaceGroup k),
  ("if", ifForm),
  ("while", whileForm),
  ("do", doForm),
  ("for", forForm),
  ("switch", switchForm),
  ("case", caseForm),
  ("default", fun _ => .defaultLabel <$> wordThen "default" ":"),
  ("break", fun _ => .break <$> wordThen "break" ";"),
  ("continue", fun _ => .continue <$> wordThen "continue" ";"),
  ("return", returnForm),
  ("\x7b", fun k => .block <$> block k)]

/-- An expression and a semicolon. -/
def exprStmt (k : Nested) : Parse Stmt := do
  let e ← k.expr
  let stop ← punctuation ";"
  return .expr e (e.range.merge stop.range)

/-- The form of the current token. -/
def formHere (g : Grammar) (p : Parser) : Form :=
  (p.formWord?.bind g.form?).getD exprStmt

/-- A statement. -/
def statement (g : Grammar) : Nat → Parse Stmt
  | 0 => stalled
  | n + 1 => do
    formHere g (← get) ⟨n, expression g.operators n, statement g n⟩

/-- What forms may call back for, with a given bound on nesting. -/
def nested (g : Grammar) (fuel : Nat) : Nested :=
  ⟨fuel, expression g.operators fuel, statement g fuel⟩

end Rill.Parse

namespace Rill.Grammar

/-- The operators of the language. -/
def standardOperators : OperatorTable where
  between := ("?", .ternary) :: BinaryOp.all.map fun op => (op.text, .binary op)
  before := [UnaryOp.not, .plus, .minus, .pre .up, .pre .down].map fun op => (op.text, op)
  after := [("++", .step (.post .up)), ("--", .step (.post .down)), ("(", .call), ("[", .subscript),
    (".", .member)]

/-- The grammar of the language. -/
def standard : Grammar := ⟨standardOperators, Parse.forms⟩

end Rill.Grammar
