import Rill.Grammar.Parser

/-!
# Grammars

A grammar is data : the operators that an expression may use, and the forms of statements by the
word or mark with which they start. An operator must be known to be entered in a table; a form is a
step of parsing that may call back for a whole expression or statement.
-/

namespace Rill

/-- What stands between two operands. -/
inductive BinaryRule where
  | ternary
  | binary (op : BinaryOp)
deriving DecidableEq, Repr

namespace BinaryRule

/-- How tightly a rule binds. -/
def precedence : BinaryRule → Nat
  | .ternary => ternaryPrecedence
  | .binary op => op.precedence

/-- The rule of a mark. -/
def ofText? (text : String) : Option BinaryRule :=
  if text = "?" then some .ternary else (BinaryOp.ofText? text).map .binary

end BinaryRule

/-- What stands after an operand. -/
inductive Suffix where
  | step (op : UnaryOp)
  | call
  | subscript
  | member
deriving DecidableEq, Repr

/-- The suffix of a mark. -/
def Suffix.ofText? (text : String) : Option Suffix :=
  if text = "(" then some .call
  else if text = "[" then some .subscript
  else if text = "." then some .member
  else (UnaryOp.afterOfText? text).map .step

/-- The operators of a grammar, by their marks. -/
structure OperatorTable where
  between : List (String × BinaryRule)
  before : List (String × UnaryOp)
  after : List (String × Suffix)
deriving DecidableEq, Repr

namespace OperatorTable

/-- No operators. -/
def empty : OperatorTable := ⟨[], [], []⟩

/-- The error of a mark that no operator has. -/
def unknown (text : String) (place : OperatorPlace) : ParseError :=
  ⟨.unknownOperator text place, .unknown⟩

/-- Enters the operator that a mark has at a place. -/
def add (t : OperatorTable) (place : OperatorPlace) (text : String) :
    Except ParseError OperatorTable :=
  match place with
  | .between =>
    match BinaryRule.ofText? text with
    | some rule => .ok { t with between := (text, rule) :: t.between }
    | none => .error (unknown text place)
  | .before =>
    match UnaryOp.beforeOfText? text with
    | some op => .ok { t with before := (text, op) :: t.before }
    | none => .error (unknown text place)
  | .after =>
    match Suffix.ofText? text with
    | some suffix => .ok { t with after := (text, suffix) :: t.after }
    | none => .error (unknown text place)

/-- The rule of a mark between operands. -/
def between? (t : OperatorTable) (text : String) : Option BinaryRule := t.between.lookup text

/-- The operator of a mark before an operand. -/
def before? (t : OperatorTable) (text : String) : Option UnaryOp := t.before.lookup text

/-- The suffix of a mark after an operand. -/
def after? (t : OperatorTable) (text : String) : Option Suffix := t.after.lookup text

end OperatorTable

/-- What a form of statement may call back for, and how often it may repeat. -/
structure Nested where
  fuel : Nat
  expr : Parse Expr
  stmt : Parse Stmt

/-- A form of statement. -/
abbrev Form := Nested → Parse Stmt

/-- The operators and statement forms of a language. -/
structure Grammar where
  operators : OperatorTable
  forms : List (String × Form)

namespace Grammar

/-- The grammar without operators and forms. -/
def empty : Grammar := ⟨.empty, []⟩

/-- Enters an operator. -/
def addOperator (g : Grammar) (place : OperatorPlace) (text : String) : Except ParseError Grammar :=
  (g.operators.add place text).map fun operators => { g with operators := operators }

/-- Enters a form of statement; an earlier one for the same word is replaced. -/
def addForm (g : Grammar) (text : String) (form : Form) : Grammar :=
  { g with forms := (text, form) :: g.forms }

/-- The form of statement for a word. -/
def form? (g : Grammar) (text : String) : Option Form := g.forms.lookup text

end Grammar

end Rill
