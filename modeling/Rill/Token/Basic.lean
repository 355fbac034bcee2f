import Rill.Source.Position
import Rill.Syntax.Builtin
import Rill.Text.Quoted

/-!
# Tokens

A lexeme is a word of the language : what kind it has and what it says. A token is a lexeme
with the range from which it was read. String and character literals hold the value they
denote, all other lexemes their text, so only for those two can the text of the range differ
from the content of the lexeme.
-/

namespace Rill

/-- The reserved words. -/
inductive Keyword where
  | bool (value : Bool)
  | null
  | type (type : BuiltinType)
deriving DecidableEq, Repr

namespace Keyword

/-- How a reserved word is written. -/
def text : Keyword → String
  | .bool true => "true"
  | .bool false => "false"
  | .null => "null"
  | .type t => t.name

/-- Every reserved word. -/
def all : List Keyword :=
  [.bool true, .bool false, .null] ++ BuiltinType.all.map .type

/-- The reserved word written in a given way. -/
def ofText? (text : String) : Option Keyword :=
  all.find? (·.text == text)

/-- The type that a reserved word names. -/
def type? : Keyword → Option BuiltinType
  | .type t => some t
  | _ => none

end Keyword

/-- The kinds of tokens. -/
inductive TokenKind where
  | identifier
  | keyword (word : Keyword)
  | number
  | string
  | char
  | comment
  | blank
  | lineBreak
  | punctuation
deriving DecidableEq, Repr

namespace TokenKind

/-- Whether tokens of the kind carry no meaning of their own. -/
def isTrivia : TokenKind → Bool
  | .comment | .blank | .lineBreak => true
  | _ => false

/-- Whether tokens of the kind denote a number, string or character. -/
def isLiteral : TokenKind → Bool
  | .number | .string | .char => true
  | _ => false

/-- The name of a kind in messages. -/
def text : TokenKind → String
  | .identifier => "identifier"
  | .keyword word => s!"keyword '{word.text}'"
  | .number => "number literal"
  | .string => "string literal"
  | .char => "char literal"
  | .comment => "comment"
  | .blank => "whitespace"
  | .lineBreak => "end of line"
  | .punctuation => "punctuation"

end TokenKind

/-- A word of the language. -/
inductive Lexeme where
  | identifier (name : String)
  | keyword (word : Keyword)
  | number (text : String)
  | string (value : String)
  | char (value : Char)
  | comment (text : String)
  | blank (text : String)
  | lineBreak (text : String)
  | punctuation (text : String)
deriving DecidableEq, Repr

namespace Lexeme

/-- The kind of a lexeme. -/
def kind : Lexeme → TokenKind
  | .identifier _ => .identifier
  | .keyword word => .keyword word
  | .number _ => .number
  | .string _ => .string
  | .char _ => .char
  | .comment _ => .comment
  | .blank _ => .blank
  | .lineBreak _ => .lineBreak
  | .punctuation _ => .punctuation

/-- The text that a lexeme holds; a character literal holds none. -/
def text : Lexeme → String
  | .identifier s | .number s | .string s | .comment s | .blank s | .lineBreak s | .punctuation s =>
    s
  | .keyword word => word.text
  | .char _ => ""

/-- A lexeme as messages show it : its kind and its quoted content. -/
def label : Lexeme → String
  | .char c => s!"{TokenKind.text .char} {Text.quoteChar c}"
  | l => s!"{l.kind.text} {Text.quoteString l.text}"

end Lexeme

/-- A lexeme and the range from which it was read. -/
structure Token where
  lexeme : Lexeme
  range : Range
deriving DecidableEq, Repr

namespace Token

/-- The kind of a token. -/
def kind (t : Token) : TokenKind := t.lexeme.kind

/-- Whether a token carries no meaning of its own. -/
def isTrivia (t : Token) : Bool := t.kind.isTrivia

/-- Whether a token is the given piece of punctuation. -/
def isPunctuation (t : Token) (text : String) : Bool :=
  t.lexeme == .punctuation text

/-- Whether a token is the given identifier. -/
def isIdentifier (t : Token) (name : String) : Bool :=
  t.lexeme == .identifier name

/-- A token as messages show it. -/
def label (t : Token) : String := t.lexeme.label

end Token

/-- Why a text cannot be cut into tokens. -/
inductive LexFault where
  | unterminatedString
  | unterminatedChar
  | emptyChar
  | newlineInChar
  | charTooLong
  | unknownEscape (escape : Char)
  | unterminatedComment
  | unrecognized (found : Char)
deriving DecidableEq, Repr

/-- The wording of a lexical fault. -/
def LexFault.message : LexFault → String
  | .unterminatedString => "unterminated string literal"
  | .unterminatedChar => "unterminated char literal"
  | .emptyChar => "empty char literal"
  | .newlineInChar => "newline in char literal"
  | .charTooLong => "char literal holds more than one character"
  | .unknownEscape escape => s!"unknown escape sequence '\\{escape}'"
  | .unterminatedComment => "unterminated block comment"
  | .unrecognized found => s!"unrecognized character {Text.quoteChar found}"

/-- A lexical fault and the range that was read when it was found. -/
structure LexError where
  fault : LexFault
  range : Range
deriving DecidableEq, Repr

end Rill
