import Rill.Source.Position
import Rill.Syntax.Builtin
import Rill.Syntax.Operator
import Rill.Syntax.Scopes

/-!
# Syntax trees

Expressions, statements and declarations. Every node knows the range from which it was read.
Declarations know their number and the scope in which they are entered; functions, classes,
namespaces, blocks and `for` statements also know the scope that they open.
-/

namespace Rill

/-- A name at a place. -/
structure Ident where
  name : String
  range : Range
deriving DecidableEq, Repr

/-- A type annotation. -/
inductive TypeRef where
  | builtin (type : BuiltinType)
  | named (ident : Ident)
deriving DecidableEq, Repr

namespace TypeRef

/-- The name of an annotated type. -/
def name : TypeRef → String
  | .builtin type => type.name
  | .named ident => ident.name

/-- Whether the annotation says that there is no value. -/
def isVoid : TypeRef → Bool
  | .builtin .void => true
  | _ => false

end TypeRef

/-- What a literal denotes. -/
inductive Literal where
  | null
  | bool (value : Bool)
  | int (value : Int64)
  | float (value : Float)
  | char (value : Char)
  | string (value : String)
deriving Repr

/-- Expressions. -/
inductive Expr where
  | literal (value : Literal) (range : Range)
  | name (ident : Ident)
  | paren (inner : Expr) (range : Range)
  | unary (op : UnaryOp) (operand : Expr) (range : Range)
  | binary (op : BinaryOp) (lhs rhs : Expr) (range : Range)
  | ternary (condition whenTrue whenFalse : Expr) (range : Range)
  | member (object : Expr) (field : Ident) (range : Range)
  | subscript (object index : Expr) (range : Range)
  | call (callee : Expr) (args : List Expr) (range : Range)
deriving Repr

/-- The kinds of expressions. -/
inductive ExprKind where
  | nullLiteral
  | boolLiteral
  | intLiteral
  | floatLiteral
  | charLiteral
  | stringLiteral
  | name
  | paren
  | unary
  | binary
  | ternary
  | member
  | subscript
  | call
deriving DecidableEq, Repr

namespace ExprKind

/-- The name of a kind in messages. -/
def text : ExprKind → String
  | .nullLiteral => "NullLiteral"
  | .boolLiteral => "BoolLiteral"
  | .intLiteral => "IntLiteral"
  | .floatLiteral => "FloatLiteral"
  | .charLiteral => "CharLiteral"
  | .stringLiteral => "StringLiteral"
  | .name => "Identifier"
  | .paren => "Paren"
  | .unary => "Unary"
  | .binary => "Binary"
  | .ternary => "Ternary"
  | .member => "MemberAccess"
  | .subscript => "Subscript"
  | .call => "FunctionCall"

/-- Whether expressions of the kind are literals. -/
def isLiteral : ExprKind → Bool
  | .nullLiteral | .boolLiteral | .intLiteral | .floatLiteral | .charLiteral | .stringLiteral =>
    true
  | _ => false

/-- Whether expressions of the kind select from, or call, what stands before them. -/
def isSelection : ExprKind → Bool
  | .member | .subscript | .call => true
  | _ => false

end ExprKind

/-- The kind of the expression that a literal makes. -/
def Literal.kind : Literal → ExprKind
  | .null => .nullLiteral
  | .bool _ => .boolLiteral
  | .int _ => .intLiteral
  | .float _ => .floatLiteral
  | .char _ => .charLiteral
  | .string _ => .stringLiteral

namespace Expr

/-- The kind of an expression. -/
def kind : Expr → ExprKind
  | .literal value _ => value.kind
  | .name .. => .name
  | .paren .. => .paren
  | .unary .. => .unary
  | .binary .. => .binary
  | .ternary .. => .ternary
  | .member .. => .member
  | .subscript .. => .subscript
  | .call .. => .call

/-- The range of an expression. -/
def range : Expr → Range
  | .literal _ range => range
  | .name ident => ident.range
  | .paren _ range => range
  | .unary _ _ range => range
  | .binary _ _ _ range => range
  | .ternary _ _ _ range => range
  | .member _ _ range => range
  | .subscript _ _ range => range
  | .call _ _ range => range

/-- The name that an expression consists of. -/
def ident? : Expr → Option Ident
  | .name ident => some ident
  | _ => none

/-- A binary expression over the range of its operands. -/
def ofBinary (op : BinaryOp) (lhs rhs : Expr) : Expr :=
  .binary op lhs rhs (lhs.range.merge rhs.range)

/-- A conditional expression from its condition to its last branch. -/
def ofTernary (condition whenTrue whenFalse : Expr) : Expr :=
  .ternary condition whenTrue whenFalse (condition.range.merge whenFalse.range)

end Expr

/-- A variable, a constant or a parameter. -/
structure Variable where
  id : DeclId
  ident : Ident
  type : Option TypeRef
  init : Option Expr
  constant : Bool
  scope : ScopeId
  range : Range
deriving Repr

mutual

/-- Statements. -/
inductive Stmt where
  | expr (expr : Expr) (range : Range)
  | decl (decl : Decl) (range : Range)
  | block (block : Block)
  | ifElse (condition : Expr) (whenTrue : Stmt) (whenFalse : Option Stmt) (range : Range)
  | whileDo (condition : Expr) (body : Stmt) (range : Range)
  | doWhile (body : Stmt) (condition : Expr) (range : Range)
  | forLoop (init : Option Stmt) (condition step : Option Expr) (body : Stmt) (scope : ScopeId)
      (range : Range)
  | switch (subject : Expr) (body : Block) (range : Range)
  | caseLabel (value : Expr) (range : Range)
  | defaultLabel (range : Range)
  | continue (range : Range)
  | break (range : Range)
  | return (value : Option Expr) (range : Range)

/-- Statements in braces. -/
structure Block where
  stmts : List Stmt
  scope : ScopeId
  range : Range

/-- Declarations. -/
inductive Decl where
  | var (decl : Variable)
  | func (decl : Func)
  | group (decl : Group)

/-- A function. -/
structure Func where
  id : DeclId
  ident : Ident
  type : Option TypeRef
  params : List Variable
  body : Block
  scope : ScopeId
  ownScope : ScopeId
  range : Range

/-- A class or a namespace : named declarations in braces. -/
structure Group where
  kind : GroupKind
  id : DeclId
  ident : Ident
  members : List Decl
  membersRange : Range
  scope : ScopeId
  ownScope : ScopeId
  range : Range

end

/-- The kinds of statements. -/
inductive StmtKind where
  | expr
  | decl
  | block
  | ifElse
  | whileDo
  | doWhile
  | forLoop
  | switch
  | caseLabel
  | defaultLabel
  | continue
  | break
  | return
deriving DecidableEq, Repr

namespace StmtKind

/-- The name of a kind in outlines. -/
def text : StmtKind → String
  | .expr => "Expr"
  | .decl => "Decl"
  | .block => "Compound"
  | .ifElse => "If"
  | .whileDo => "While"
  | .doWhile => "DoWhile"
  | .forLoop => "For"
  | .switch => "Switch"
  | .caseLabel => "Case"
  | .defaultLabel => "Default"
  | .continue => "Continue"
  | .break => "Break"
  | .return => "Return"

/-- Whether statements of the kind repeat their body. -/
def isLoop : StmtKind → Bool
  | .whileDo | .doWhile | .forLoop => true
  | _ => false

/-- Whether statements of the kind only mark a place. -/
def isLabel : StmtKind → Bool
  | .caseLabel | .defaultLabel => true
  | _ => false

/-- Whether statements of the kind leave the statement around them. -/
def isJump : StmtKind → Bool
  | .continue | .break | .return => true
  | _ => false

end StmtKind

namespace Stmt

/-- The kind of a statement. -/
def kind : Stmt → StmtKind
  | .expr .. => .expr
  | .decl .. => .decl
  | .block .. => .block
  | .ifElse .. => .ifElse
  | .whileDo .. => .whileDo
  | .doWhile .. => .doWhile
  | .forLoop .. => .forLoop
  | .switch .. => .switch
  | .caseLabel .. => .caseLabel
  | .defaultLabel .. => .defaultLabel
  | .continue .. => .continue
  | .break .. => .break
  | .return .. => .return

/-- The range of a statement. -/
def range : Stmt → Range
  | .expr _ range => range
  | .decl _ range => range
  | .block b => b.range
  | .ifElse _ _ _ range => range
  | .whileDo _ _ range => range
  | .doWhile _ _ range => range
  | .forLoop _ _ _ _ _ range => range
  | .switch _ _ range => range
  | .caseLabel _ range => range
  | .defaultLabel range => range
  | .continue range => range
  | .break range => range
  | .return _ range => range

/-- The declaration that a statement consists of. -/
def decl? : Stmt → Option Decl
  | .decl d _ => some d
  | _ => none

end Stmt

/-- The kinds of declarations. -/
inductive DeclKind where
  | var
  | func
  | group (kind : GroupKind)
deriving DecidableEq, Repr

/-- The name of a kind in messages. -/
def DeclKind.text : DeclKind → String
  | .var => "variable"
  | .func => "function"
  | .group .classGroup => "class"
  | .group .namespaceGroup => "namespace"

namespace Decl

/-- The kind of a declaration. -/
def kind : Decl → DeclKind
  | .var _ => .var
  | .func _ => .func
  | .group d => .group d.kind

/-- The number of a declaration. -/
def id : Decl → DeclId
  | .var d => d.id
  | .func d => d.id
  | .group d => d.id

/-- The declared name. -/
def ident : Decl → Ident
  | .var d => d.ident
  | .func d => d.ident
  | .group d => d.ident

/-- The scope in which a declaration is entered. -/
def scope : Decl → ScopeId
  | .var d => d.scope
  | .func d => d.scope
  | .group d => d.scope

/-- The scope that a declaration opens. -/
def ownScope? : Decl → Option ScopeId
  | .var _ => none
  | .func d => some d.ownScope
  | .group d => some d.ownScope

/-- The range of a declaration. -/
def range : Decl → Range
  | .var d => d.range
  | .func d => d.range
  | .group d => d.range

/-- The function that is declared. -/
def func? : Decl → Option Func
  | .func d => some d
  | _ => none

end Decl

/-- The number of parameters of a function. -/
def Func.arity (f : Func) : Nat := f.params.length

end Rill
