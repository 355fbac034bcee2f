import Rill.Decimal.Layout
import Rill.Grammar.Program
import Rill.Text.Quoted

/-!
# Outlines

An outline is a tree of labelled nodes : one for the root and one for each declaration, statement
and expression. Parameters, and the braces of functions, switches and groups, have no node of their
own; what they hold belongs to the node around them. An outline is written one node a line, a parent
before its children and each child two blanks further in.
-/

namespace Rill

/-- A labelled node with its children. -/
inductive Outline where
  | node (label : String) (range : Range) (children : List Outline)

namespace Outline

/-- The line of a node at a depth. -/
def line (showRanges : Bool) (depth : Nat) (label : String) (range : Range) : String :=
  let indent := String.ofList (List.replicate (2 * depth) ' ')
  if showRanges then s!"{indent}{label} <{range.text}>" else s!"{indent}{label}"

mutual

/-- The lines of an outline at a depth. -/
def linesAt (showRanges : Bool) (depth : Nat) : Outline → List String
  | .node label range children =>
    line showRanges depth label range :: childLines showRanges (depth + 1) children

/-- The lines of some outlines at a depth. -/
def childLines (showRanges : Bool) (depth : Nat) : List Outline → List String
  | [] => []
  | o :: rest => linesAt showRanges depth o ++ childLines showRanges depth rest

end

/-- The lines of an outline. -/
def lines (showRanges : Bool) (o : Outline) : List String :=
  o.linesAt showRanges 0

/-- The text of an outline, each line with its line feed. -/
def text (showRanges : Bool) (o : Outline) : String :=
  String.join ((o.lines showRanges).map (· ++ "\n"))

end Outline

/-- The label of a literal. -/
def Literal.label : Literal → String
  | .null => "NullLiteral"
  | .bool b => if b then "BoolLiteral true" else "BoolLiteral false"
  | .int i => s!"IntLiteral {i.toInt}"
  | .float x => s!"FloatLiteral {Decimal.literal x}"
  | .char c => s!"CharLiteral {Text.quoteChar c}"
  | .string s => s!"StringLiteral {Text.quoteString s}"

mutual

/-- The outline of an expression. -/
def Expr.outline : Expr → Outline
  | .literal value range => .node value.label range []
  | .name ident => .node s!"Identifier {ident.name}" ident.range []
  | .paren inner range => .node "ParenExpr" range [inner.outline]
  | .unary op operand range => .node s!"UnaryExpr {op.label}" range [operand.outline]
  | .binary op lhs rhs range => .node s!"BinaryExpr {op.text}" range [lhs.outline, rhs.outline]
  | .ternary c a b range => .node "TernaryExpr" range [c.outline, a.outline, b.outline]
  | .member object field range => .node s!"MemberAccess .{field.name}" range [object.outline]
  | .subscript object index range => .node "Subscript" range [object.outline, index.outline]
  | .call callee args range =>
    .node s!"FunctionCall ({args.length} args)" range (callee.outline :: Expr.outlines args)

/-- The outlines of some expressions. -/
def Expr.outlines : List Expr → List Outline
  | [] => []
  | e :: rest => e.outline :: Expr.outlines rest

end

/-- The outline of an expression that may be missing. -/
def Expr.outline? (e : Option Expr) : List Outline :=
  e.toList.map Expr.outline

/-- A type annotation as labels show it. -/
def TypeRef.suffix (type : Option TypeRef) : String :=
  match type with
  | some t => s!": {t.name}"
  | none => ""

/-- The label of a variable. -/
def Variable.label (v : Variable) : String :=
  let kind := if v.constant then " const" else ""
  s!"VariableDecl {v.ident.name}{TypeRef.suffix v.type}{kind}"

/-- The outline of a variable. -/
def Variable.outline (v : Variable) : Outline :=
  .node v.label v.range (Expr.outline? v.init)

/-- The label of a function. -/
def Func.label (f : Func) : String :=
  let params := ", ".intercalate (f.params.map (·.ident.name))
  s!"FunctionDecl {f.ident.name}({params}){TypeRef.suffix f.type}"

/-- The label of a group. -/
def Group.label (g : Group) : String :=
  match g.kind with
  | .classGroup => s!"ClassDecl {g.ident.name}"
  | .namespaceGroup => s!"NamespaceDecl {g.ident.name}"

/-- The label of a kind of statement. -/
def StmtKind.label (kind : StmtKind) : String :=
  kind.text ++ "Stmt"

mutual

/-- The outline of a statement. -/
def Stmt.outline : Stmt → Outline
  | .expr e range => .node (StmtKind.label .expr) range [e.outline]
  | .decl d range => .node (StmtKind.label .decl) range [d.outline]
  | .block b => .node (StmtKind.label .block) b.range b.outlines
  | .ifElse c a b range =>
    .node (StmtKind.label .ifElse) range (c.outline :: a.outline :: Stmt.outline? b)
  | .whileDo c body range => .node (StmtKind.label .whileDo) range [c.outline, body.outline]
  | .doWhile body c range => .node (StmtKind.label .doWhile) range [body.outline, c.outline]
  | .forLoop init c step body _ range =>
    .node (StmtKind.label .forLoop) range
      (Stmt.outline? init ++ Expr.outline? c ++ Expr.outline? step ++ [body.outline])
  | .switch subject body range =>
    .node (StmtKind.label .switch) range (subject.outline :: body.outlines)
  | .caseLabel value range => .node (StmtKind.label .caseLabel) range [value.outline]
  | .defaultLabel range => .node (StmtKind.label .defaultLabel) range []
  | .continue range => .node (StmtKind.label .continue) range []
  | .break range => .node (StmtKind.label .break) range []
  | .return value range => .node (StmtKind.label .return) range (Expr.outline? value)

/-- The outline of a statement that may be missing. -/
def Stmt.outline? : Option Stmt → List Outline
  | none => []
  | some s => [s.outline]

/-- The outlines of some statements. -/
def Stmt.outlines : List Stmt → List Outline
  | [] => []
  | s :: rest => s.outline :: Stmt.outlines rest

/-- The outlines of the statements of a block. -/
def Block.outlines : Block → List Outline
  | ⟨stmts, _, _⟩ => Stmt.outlines stmts

/-- The outline of a declaration. -/
def Decl.outline : Decl → Outline
  | .var v => v.outline
  | .func f => f.outline
  | .group g => g.outline

/-- The outlines of some declarations. -/
def Decl.outlines : List Decl → List Outline
  | [] => []
  | d :: rest => d.outline :: Decl.outlines rest

/-- The outline of a function. -/
def Func.outline : Func → Outline
  | f@⟨_, _, _, _, body, _, _, range⟩ => .node f.label range body.outlines

/-- The outline of a group. -/
def Group.outline : Group → Outline
  | g@⟨_, _, _, members, _, _, _, range⟩ => .node g.label range (Decl.outlines members)

end

/-- The outline of a program. -/
def Program.outline (p : Program) : Outline :=
  .node "Unit" p.range (Decl.outlines p.decls)

/-- The outline of a script. -/
def Script.outline (s : Script) : Outline :=
  .node "Source" s.range (Stmt.outlines s.stmts)

end Rill
