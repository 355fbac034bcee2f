import Rill.Grammar.Statement

/-!
# Programs and scripts

A program is a sequence of declarations, a script a sequence of any statements. Both keep the
names and the declaration scopes of their text. Their range covers their members and is
unknown if there are none.
-/

namespace Rill

/-- A parsed text of declarations. -/
structure Program where
  decls : List Decl
  range : Range
  names : NameTable
  scopes : ScopeTree

/-- A parsed text of statements. -/
structure Script where
  stmts : List Stmt
  range : Range
  names : NameTable
  scopes : ScopeTree

/-- The least range that covers all of some ranges. -/
def Range.hull (ranges : List Range) : Range :=
  ranges.foldl Range.merge .unknown

namespace Program

/-- The functions of a program. -/
def functions (p : Program) : List Func := p.decls.filterMap Decl.func?

/-- The first function of a name. -/
def function? (p : Program) (name : String) : Option Func :=
  p.functions.find? (·.ident.name == name)

end Program

namespace Parse

/-- The declarations up to the end of the text. -/
def program (g : Grammar) : Parse Program := do
  let fuel := (← get).fuel
  let decls ← itemsUntil Parser.isEmpty (declaration (statement g fuel)) fuel
  let p ← get
  return ⟨decls, .hull (decls.map Decl.range), p.names, p.scopes⟩

/-- The statements up to the end of the text. -/
def script (g : Grammar) : Parse Script := do
  let fuel := (← get).fuel
  let stmts ← itemsUntil Parser.isEmpty (statement g fuel) fuel
  let p ← get
  return ⟨stmts, .hull (stmts.map Stmt.range), p.names, p.scopes⟩

/-- The result of a step, without the parser that it leaves. -/
def eval {α : Type} (act : Parse α) (p : Parser) : Except ParseError α :=
  match act p with
  | .ok a _ => .ok a
  | .error e _ => .error e

end Parse

/-- Reads a text as a program. -/
def Buffer.program (b : Buffer) : Except ParseError Program := do
  Parse.eval (Parse.program .standard) (← Parser.start b)

/-- Reads a text as a script. -/
def Buffer.script (b : Buffer) : Except ParseError Script := do
  Parse.eval (Parse.script .standard) (← Parser.start b)

end Rill
