import Rill.Syntax.Tree

/-!
# Names and types in a tree

`mentions` lists the names and type annotations of a tree. A declaration gives its name, then its
type, then what it holds; all other children come in the order in which they are written.
-/

namespace Rill

/-- A name or a type annotation. -/
inductive Mention where
  | ident (ident : Ident)
  | type (type : TypeRef)
deriving DecidableEq, Repr

mutual

/-- The names in an expression. -/
def Expr.mentions : Expr → List Mention
  | .literal .. => []
  | .name ident => [.ident ident]
  | .paren inner _ => inner.mentions
  | .unary _ operand _ => operand.mentions
  | .binary _ lhs rhs _ => lhs.mentions ++ rhs.mentions
  | .ternary c a b _ => c.mentions ++ a.mentions ++ b.mentions
  | .member object field _ => object.mentions ++ [.ident field]
  | .subscript object index _ => object.mentions ++ index.mentions
  | .call callee args _ => callee.mentions ++ Expr.mentionsAll args

/-- The names in some expressions. -/
def Expr.mentionsAll : List Expr → List Mention
  | [] => []
  | e :: rest => e.mentions ++ Expr.mentionsAll rest

end

/-- The names in an expression that may be missing. -/
def Expr.mentions? : Option Expr → List Mention
  | none => []
  | some e => e.mentions

/-- The type of a declaration, if it has one. -/
def TypeRef.mentions? (type : Option TypeRef) : List Mention :=
  type.toList.map .type

/-- The names and the type of a variable. -/
def Variable.mentions (v : Variable) : List Mention :=
  .ident v.ident :: TypeRef.mentions? v.type ++ Expr.mentions? v.init

mutual

/-- The names and types in a statement. -/
def Stmt.mentions : Stmt → List Mention
  | .expr e _ => e.mentions
  | .decl d _ => d.mentions
  | .block b => b.mentions
  | .ifElse c a b _ => c.mentions ++ a.mentions ++ Stmt.mentions? b
  | .whileDo c body _ => c.mentions ++ body.mentions
  | .doWhile body c _ => body.mentions ++ c.mentions
  | .forLoop init c step body _ _ =>
    Stmt.mentions? init ++ Expr.mentions? c ++ Expr.mentions? step ++ body.mentions
  | .switch subject body _ => subject.mentions ++ body.mentions
  | .caseLabel value _ => value.mentions
  | .defaultLabel _ | .continue _ | .break _ => []
  | .return value _ => Expr.mentions? value

/-- The names and types in a statement that may be missing. -/
def Stmt.mentions? : Option Stmt → List Mention
  | none => []
  | some s => s.mentions

/-- The names and types in some statements. -/
def Stmt.mentionsAll : List Stmt → List Mention
  | [] => []
  | s :: rest => s.mentions ++ Stmt.mentionsAll rest

/-- The names and types in a block. -/
def Block.mentions : Block → List Mention
  | ⟨stmts, _, _⟩ => Stmt.mentionsAll stmts

/-- The names and types in a declaration. -/
def Decl.mentions : Decl → List Mention
  | .var v => v.mentions
  | .func f => f.mentions
  | .group g => g.mentions

/-- The names and types in some declarations. -/
def Decl.mentionsAll : List Decl → List Mention
  | [] => []
  | d :: rest => d.mentions ++ Decl.mentionsAll rest

/-- The names and types in a function. -/
def Func.mentions : Func → List Mention
  | ⟨_, ident, type, params, body, _, _, _⟩ =>
    .ident ident :: TypeRef.mentions? type ++ params.flatMap Variable.mentions ++ body.mentions

/-- The names and types in a group. -/
def Group.mentions : Group → List Mention
  | ⟨_, _, ident, members, _, _, _, _⟩ => .ident ident :: Decl.mentionsAll members

end

end Rill
