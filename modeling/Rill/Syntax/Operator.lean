/-!
# Operators

Binary operators fall into five groups : plain assignment, assignment of an arithmetic result,
logical operators, comparisons and arithmetic. A group has one precedence, except that equality
binds less than the other comparisons and sums less than products. Assignments associate to the
right, all others to the left.
-/

namespace Rill

/-- The arithmetic operators. -/
inductive Arith where
  | add
  | sub
  | mul
  | div
  | mod
deriving DecidableEq, Repr

/-- The comparisons. -/
inductive Comparison where
  | eq
  | ne
  | lt
  | le
  | gt
  | ge
deriving DecidableEq, Repr

/-- The operators that may leave their right operand unevaluated. -/
inductive Logical where
  | or
  | and
deriving DecidableEq, Repr

/-- The binary operators. -/
inductive BinaryOp where
  | assign
  | compound (op : Arith)
  | logical (op : Logical)
  | compare (op : Comparison)
  | arith (op : Arith)
deriving DecidableEq, Repr

/-- The side to which a chain of one operator is grouped. -/
inductive Associativity where
  | left
  | right
deriving DecidableEq, Repr

/-- How an arithmetic operator is written. -/
def Arith.text : Arith → String
  | .add => "+"
  | .sub => "-"
  | .mul => "*"
  | .div => "/"
  | .mod => "%"

/-- How a comparison is written. -/
def Comparison.text : Comparison → String
  | .eq => "=="
  | .ne => "!="
  | .lt => "<"
  | .le => "<="
  | .gt => ">"
  | .ge => ">="

/-- How a logical operator is written. -/
def Logical.text : Logical → String
  | .or => "||"
  | .and => "&&"

/-- Whether the first operand alone decides the result, which is then that operand. -/
def Logical.decides : Logical → Bool → Bool
  | .or, a => a
  | .and, a => !a

namespace BinaryOp

/-- How an operator is written. -/
def text : BinaryOp → String
  | .assign => "="
  | .compound op => op.text ++ "="
  | .logical op => op.text
  | .compare op => op.text
  | .arith op => op.text

/-- Every binary operator. -/
def all : List BinaryOp :=
  [.assign, .compound .add, .compound .sub, .compound .mul, .compound .div, .compound .mod,
    .logical .or,
   .logical .and, .compare .eq, .compare .ne, .compare .lt, .compare .le, .compare .gt,
     .compare .ge,
   .arith .add, .arith .sub, .arith .mul, .arith .div, .arith .mod]

/-- The operator written in a given way. -/
def ofText? (text : String) : Option BinaryOp :=
  all.find? (·.text == text)

/-- How tightly an operator binds. -/
def precedence : BinaryOp → Nat
  | .assign | .compound _ => 2
  | .logical .or => 3
  | .logical .and => 4
  | .compare .eq | .compare .ne => 5
  | .compare _ => 6
  | .arith .add | .arith .sub => 7
  | .arith _ => 8

/-- Whether the operator writes to its left operand. -/
def isAssignment : BinaryOp → Bool
  | .assign | .compound _ => true
  | _ => false

/-- The side to which a chain of the operator is grouped. -/
def associativity (op : BinaryOp) : Associativity :=
  if op.isAssignment then .right else .left

/-- The arithmetic operator that an assignment applies first. -/
def compound? : BinaryOp → Option Arith
  | .compound op => some op
  | _ => none

/-- Whether the operator compares. -/
def isComparison : BinaryOp → Bool
  | .compare _ => true
  | _ => false

/-- Whether the operator is logical. -/
def isLogical : BinaryOp → Bool
  | .logical _ => true
  | _ => false

/-- Whether the operator is arithmetic. -/
def isArithmetic : BinaryOp → Bool
  | .arith _ => true
  | _ => false

end BinaryOp

/-- The precedence of the conditional operator, below every binary one. -/
def ternaryPrecedence : Nat := 1

/-- The direction of a step by one. -/
inductive Step where
  | up
  | down
deriving DecidableEq, Repr

/-- How a step is written. -/
def Step.text : Step → String
  | .up => "++"
  | .down => "--"

/-- The unary operators. A step stands before its operand (`pre`) or after it (`post`). -/
inductive UnaryOp where
  | not
  | plus
  | minus
  | pre (step : Step)
  | post (step : Step)
deriving DecidableEq, Repr

namespace UnaryOp

/-- How an operator is written. -/
def text : UnaryOp → String
  | .not => "!"
  | .plus => "+"
  | .minus => "-"
  | .pre step | .post step => step.text

/-- Whether the operator stands after its operand. -/
def isPost : UnaryOp → Bool
  | .post _ => true
  | _ => false

/-- Whether the operator writes to its operand. -/
def isStep : UnaryOp → Bool
  | .pre _ | .post _ => true
  | _ => false

/-- How an operator is named in an outline. -/
def label (op : UnaryOp) : String :=
  if op.isPost then "postfix " ++ op.text else op.text

/-- The operator before an operand that is written in a given way. -/
def beforeOfText? (text : String) : Option UnaryOp :=
  [.not, .plus, .minus, .pre .up, .pre .down].find? (·.text == text)

/-- The operator after an operand that is written in a given way. -/
def afterOfText? (text : String) : Option UnaryOp :=
  [.post .up, .post .down].find? (·.text == text)

end UnaryOp

end Rill
