import Rill.Text.Json
import Rill.Token.Basic

/-!
# Tokens as JSON

A token becomes an object with its kind, its range and what it holds.
-/

namespace Rill

open Text (Json)

/-- A location as JSON. -/
def Location.json (l : Location) : Json :=
  .object [("line", .number l.line), ("column", .number l.column)]

/-- A range as JSON. -/
def Range.json (r : Range) : Json :=
  .object [("start", r.start.json), ("end", r.stop.json)]

/-- The name of a kind in JSON; all reserved words share theirs. -/
def TokenKind.jsonName : TokenKind → String
  | .identifier => "Identifier"
  | .keyword _ => "Keyword"
  | .number => "NumberLiteral"
  | .string => "StringLiteral"
  | .char => "CharLiteral"
  | .comment => "Comment"
  | .blank => "WhiteSpace"
  | .lineBreak => "EndOfLine"
  | .punctuation => "Other"

/-- A kind as JSON. -/
def TokenKind.json : TokenKind → Json
  | .keyword word => .object [(jsonName (.keyword word), .string word.text.capitalize)]
  | kind => .string kind.jsonName

/-- What a lexeme holds as JSON. -/
def Lexeme.jsonValue : Lexeme → Json
  | .char c => .object [("Char", .string (String.singleton c))]
  | l => .object [("Text", .string l.text)]

/-- A token as JSON. -/
def Token.json (t : Token) : Json :=
  .object [("kind", t.kind.json), ("location", t.range.json), ("value", t.lexeme.jsonValue)]

end Rill
