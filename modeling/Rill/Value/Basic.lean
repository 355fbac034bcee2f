import Rill.Decimal.Layout
import Rill.Syntax.Tree

/-!
# Values

A value is null, a truth value, an integer of 64 bits, a double, a character, a string or a
function. A function is the builtin `print` or a declared one. `Value.pieces` gives the text of a
value in the runs in which it is written out; `Value.display` is the whole text. How a text is cut
into runs is not part of its meaning, so whatever writes values does it by some `Cutting`.
-/

namespace Rill

/-- What can be called. -/
inductive Callable where
  | print
  | user (decl : Func)

/-- What an expression evaluates to. -/
inductive Value where
  | null
  | bool (value : Bool)
  | int (value : Int64)
  | float (value : Float)
  | char (value : Char)
  | string (value : String)
  | function (value : Callable)

/-- The kinds of values. -/
inductive ValueKind where
  | null
  | bool
  | int
  | float
  | char
  | string
  | function
deriving DecidableEq, Repr

/-- The name of a kind in messages. -/
def ValueKind.text : ValueKind → String
  | .null => "null"
  | .bool => "bool"
  | .int => "int"
  | .float => "float"
  | .char => "char"
  | .string => "string"
  | .function => "function"

/-- Whether two functions are the same : both builtin, or of one declaration. -/
def Callable.same : Callable → Callable → Bool
  | .print, .print => true
  | .user f, .user g => f.id == g.id
  | _, _ => false

namespace Value

/-- The kind of a value. -/
def kind : Value → ValueKind
  | .null => .null
  | .bool _ => .bool
  | .int _ => .int
  | .float _ => .float
  | .char _ => .char
  | .string _ => .string
  | .function _ => .function

/-- The value of a literal. -/
def ofLiteral : Literal → Value
  | .null => .null
  | .bool b => .bool b
  | .int i => .int i
  | .float x => .float x
  | .char c => .char c
  | .string s => .string s

/-- Whether a value is null. -/
def isNull : Value → Bool
  | .null => true
  | _ => false

/-- The truth value that a value is. -/
def bool? : Value → Option Bool
  | .bool b => some b
  | _ => none

/-- The integer that a value is. -/
def int? : Value → Option Int64
  | .int i => some i
  | _ => none

/-- The function that a value is. -/
def function? : Value → Option Callable
  | .function f => some f
  | _ => none

/-- Whether two values are the same. Doubles are compared as numbers. -/
def same : Value → Value → Bool
  | .null, .null => true
  | .bool a, .bool b => a == b
  | .int a, .int b => a == b
  | .float a, .float b => a == b
  | .char a, .char b => a == b
  | .string a, .string b => a == b
  | .function a, .function b => a.same b
  | _, _ => false

/-- The text of a value, in the runs in which it is written out. -/
def pieces : Value → List String
  | .null => ["null"]
  | .bool b => [if b then "true" else "false"]
  | .int i => (if i < 0 then ["-"] else []) ++ [toString i.toInt.natAbs]
  | .float x => Decimal.pieces x
  | .char c => [String.singleton c]
  | .string s => [s]
  | .function _ => ["<function>"]

/-- The text of a value. -/
def display (v : Value) : String :=
  String.join v.pieces

end Value

/-- A way of cutting the texts of values into runs. One function is written like another. -/
structure Cutting where
  pieces : Value → List String
  join_pieces : ∀ v, String.join (pieces v) = v.display
  function : ∀ f g, pieces (.function f) = pieces (.function g)

/-- The runs in which values are written out. -/
def Cutting.standard : Cutting := ⟨Value.pieces, fun _ => rfl, fun _ _ => rfl⟩

end Rill
