import Rill.Value.Fault

/-!
# Operations on values

Both operands of a binary operator must have one kind, and each kind supports some operators :

* integers wrap, and cannot be divided by zero;
* doubles follow IEEE 754;
* for truth values `+` is or, `-` exclusive or, `*` and; dividing by `false` is dividing by zero;
* strings are joined and compared, characters only compared;
* null is equal to itself;
* functions support nothing.
-/

namespace Rill

/-- Whether a comparison holds of two values that are ordered in a given way. -/
def Comparison.holds : Comparison → Ordering → Bool
  | .eq, o => o == .eq
  | .ne, o => o != .eq
  | .lt, o => o == .lt
  | .le, o => o != .gt
  | .gt, o => o == .gt
  | .ge, o => o != .lt

/-- Whether a comparison holds of two doubles. Only `!=` holds of a NaN. -/
def Comparison.holdsFloat : Comparison → Float → Float → Bool
  | .eq, a, b => a == b
  | .ne, a, b => a != b
  | .lt, a, b => a < b
  | .le, a, b => a ≤ b
  | .gt, a, b => b < a
  | .ge, a, b => b ≤ a

namespace Value

/-- The order of two truth values. -/
def boolOrder (a b : Bool) : Ordering := compareOfLessAndEq a.toNat b.toNat

/-- The order of two integers. -/
def intOrder (a b : Int64) : Ordering := compareOfLessAndEq a b

/-- The order of two characters. -/
def charOrder (a b : Char) : Ordering := compareOfLessAndEq a b

/-- The order of two strings, character by character. -/
def stringOrder (a b : String) : Ordering := compareOfLessAndEq a b

/-- A value of the given kind does not support the operator. -/
def unsupported (op : String) (kind : ValueKind) : Except RuntimeFault Value :=
  .error (.unsupportedOperator op kind)

/-- Arithmetic on integers. -/
def intArith (op : Arith) (a b : Int64) : Except RuntimeFault Value :=
  match op with
  | .add => .ok (.int (a + b))
  | .sub => .ok (.int (a - b))
  | .mul => .ok (.int (a * b))
  | .div => if b = 0 then .error .divisionByZero else .ok (.int (a / b))
  | .mod => if b = 0 then .error .divisionByZero else .ok (.int (a % b))

/-- Arithmetic on doubles. -/
def floatArith (op : Arith) (a b : Float) : Float :=
  match op with
  | .add => a + b
  | .sub => a - b
  | .mul => a * b
  | .div => a / b
  | .mod => Decimal.remainder a b

/-- Arithmetic on truth values. -/
def boolArith (op : Arith) (a b : Bool) : Except RuntimeFault Value :=
  match op with
  | .add => .ok (.bool (a || b))
  | .sub => .ok (.bool (a ^^ b))
  | .mul => .ok (.bool (a && b))
  | .div => if b then .ok (.bool a) else .error .divisionByZero
  | .mod => unsupported op.text .bool

/-- Logical operators on truth values whose operands are both known. -/
def boolLogical (op : Logical) (a b : Bool) : Bool :=
  match op with
  | .or => a || b
  | .and => a && b

/-- An operator applied to two truth values. -/
def boolBinary (op : BinaryOp) (a b : Bool) : Except RuntimeFault Value :=
  match op with
  | .compare c => .ok (.bool (c.holds (boolOrder a b)))
  | .arith o => boolArith o a b
  | .logical o => .ok (.bool (boolLogical o a b))
  | _ => unsupported op.text .bool

/-- An operator applied to two integers. -/
def intBinary (op : BinaryOp) (a b : Int64) : Except RuntimeFault Value :=
  match op with
  | .compare c => .ok (.bool (c.holds (intOrder a b)))
  | .arith o => intArith o a b
  | _ => unsupported op.text .int

/-- An operator applied to two doubles. -/
def floatBinary (op : BinaryOp) (a b : Float) : Except RuntimeFault Value :=
  match op with
  | .compare c => .ok (.bool (c.holdsFloat a b))
  | .arith o => .ok (.float (floatArith o a b))
  | _ => unsupported op.text .float

/-- An operator applied to two characters. -/
def charBinary (op : BinaryOp) (a b : Char) : Except RuntimeFault Value :=
  match op with
  | .compare c => .ok (.bool (c.holds (charOrder a b)))
  | _ => unsupported op.text .char

/-- An operator applied to two strings. -/
def stringBinary (op : BinaryOp) (a b : String) : Except RuntimeFault Value :=
  match op with
  | .compare c => .ok (.bool (c.holds (stringOrder a b)))
  | .arith .add => .ok (.string (a ++ b))
  | _ => unsupported op.text .string

/-- An operator applied to null and null. -/
def nullBinary (op : BinaryOp) : Except RuntimeFault Value :=
  match op with
  | .compare .eq => .ok (.bool true)
  | .compare .ne => .ok (.bool false)
  | _ => unsupported op.text .null

/-- A binary operator that does not assign, applied to two values. -/
def binary (op : BinaryOp) (lhs rhs : Value) : Except RuntimeFault Value :=
  if op.isAssignment then unsupported op.text lhs.kind
  else
    match lhs, rhs with
    | .null, .null => nullBinary op
    | .bool a, .bool b => boolBinary op a b
    | .int a, .int b => intBinary op a b
    | .float a, .float b => floatBinary op a b
    | .char a, .char b => charBinary op a b
    | .string a, .string b => stringBinary op a b
    | .function _, .function _ => unsupported op.text .function
    | _, _ => .error (.differentTypes op.text lhs.kind rhs.kind)

/-- A unary operator that does not step, applied to a value. -/
def unary (op : UnaryOp) (operand : Value) : Except RuntimeFault Value :=
  match op, operand with
  | .minus, .int i => .ok (.int (-i))
  | .minus, .float x => .ok (.float (-x))
  | .plus, .int i => .ok (.int i)
  | .plus, .float x => .ok (.float x)
  | .not, .bool b => .ok (.bool !b)
  | _, _ => unsupported op.text operand.kind

/-- Whether an operator counts up; every other operator counts as a step down. -/
def stepsUp : UnaryOp → Bool
  | .pre .up | .post .up => true
  | _ => false

/-- The value one step up or down. -/
def step (op : UnaryOp) (operand : Value) : Except RuntimeFault Value :=
  match operand with
  | .int i => .ok (.int (if stepsUp op then i + 1 else i - 1))
  | .float x => .ok (.float (if stepsUp op then x + 1.0 else x - 1.0))
  | _ => unsupported op.text operand.kind

/-- A member of a value : strings have a length. -/
def member (object : Value) (name : String) : Except RuntimeFault Value :=
  match object with
  | .string s =>
    if name = "length" then
      .ok (.int (Int64.ofNat s.length)) else .error (.unknownMember name .string)
  | _ => .error (.unknownMember name object.kind)

/-- The character of a string at an index. -/
def charAt? (s : String) (index : Int64) : Option Char :=
  if index < 0 then none else s.toList[index.toInt.toNat]?

/-- An element of a value : strings have characters. -/
def subscript (object index : Value) : Except RuntimeFault Value :=
  match object, index with
  | .string s, .int i =>
    match charAt? s i with
    | some c => .ok (.char c)
    | none => .error (.indexOutOfRange i s.length)
  | _, _ => unsupported "[]" object.kind

end Value

end Rill
