/-!
# Builtin types

The types that have a reserved word. They only annotate declarations; no rule of evaluation reads
them.
-/

namespace Rill

/-- A type with a reserved word. -/
inductive BuiltinType where
  | void
  | bool
  | int
  | float
  | char
  | string
deriving DecidableEq, Repr, Inhabited

namespace BuiltinType

/-- Every builtin type, in the order in which they are listed. -/
def all : List BuiltinType := [.void, .bool, .int, .float, .char, .string]

/-- The reserved word of a type. -/
def name : BuiltinType → String
  | .void => "void"
  | .bool => "bool"
  | .int => "int"
  | .float => "float"
  | .char => "char"
  | .string => "string"

/-- The number of bytes that a value of the type takes. -/
def size : BuiltinType → Nat
  | .void => 0
  | .bool => 1
  | .int => 8
  | .float => 8
  | .char => 4
  | .string => 24

/-- The type with a given word. -/
def ofName? (word : String) : Option BuiltinType :=
  all.find? (·.name == word)

end BuiltinType

end Rill
