import Rill.Source.Cursor
import Rill.Token.Basic

/-!
# Reading tokens

`scan` reads one lexeme from the start of a text and says how many characters it takes. It looks at
characters only, never at a location, so equal texts give equal lexemes wherever they stand.
`Tokenizer` walks a buffer with it; the first fault ends the walk. `Buffer.items` is the whole
sequence of tokens, closed by the fault if there is one.
-/

namespace Rill

/-- What is found at the start of a text, and how many characters it takes. -/
inductive Scan where
  | lexeme (lexeme : Lexeme) (length : Nat)
  | fault (fault : LexFault) (length : Nat)
deriving DecidableEq, Repr

namespace Scan

/-- The punctuation, longer marks before those they start with. -/
def operators : List String :=
  ["<<=", ">>=", "...", "==", "!=", "<=", ">=", "&&", "||", "++", "--", "+=", "-=", "*=", "/=",
    "%=", "&=",
   "|=", "^=", "<<", ">>", "->", "::", "+", "-", "*", "/", "%", "=", "<", ">", "!", "&", "|",
     "^", "~", "?",
   ":", ";", ",", ".", "(", ")", "[", "]", "\x7b", "\x7d"]

/-- The character that an escape letter stands for. -/
def unescape? : Char → Option Char
  | '\\' => some '\\'
  | '"' => some '"'
  | '\'' => some '\''
  | '0' => some '\x00'
  | 'n' => some '\n'
  | 'r' => some '\r'
  | 't' => some '\t'
  | _ => none

/-- A character that may start a word. -/
def startsWord (c : Char) : Bool :=
  c == '_' || Text.isAlphabetic c

/-- A character that may stand in a word after its start. -/
def inWord (c : Char) : Bool :=
  c == '_' || Text.isAlphanumeric c

/-- A character that ends a line. -/
def isLineEnd (c : Char) : Bool :=
  c == '\n' || c == '\r'

/-- A blank that does not end a line. -/
def isInlineBlank (c : Char) : Bool :=
  Text.isBlank c && !isLineEnd c

/-- A lexeme made from the first `n` characters of a text. -/
def taken (make : String → Lexeme) (cs : List Char) (n : Nat) : Scan :=
  .lexeme (make (String.ofList (cs.take n))) n

/-- A reserved word or an identifier. -/
def wordLexeme (text : String) : Lexeme :=
  match Keyword.ofText? text with
  | some word => .keyword word
  | none => .identifier text

/-- Whether a number starts with the mark of a radix other than ten. -/
def hasRadix : List Char → Bool
  | '0' :: m :: _ => "xXoObB".toList.contains m
  | _ => false

/-- Whether a text starts with a digit. -/
def digitNext : List Char → Bool
  | d :: _ => Text.isDigit d
  | [] => false

/-- How many characters continue a number. `plain` says that no radix mark was read; `whole`
that a decimal point may still follow. The sign of an exponent and the decimal point must
stand before a digit. -/
def numberLength (plain : Bool) : Bool → List Char → Nat
  | _, [] => 0
  | whole, c :: cs =>
    if inWord c then
      if plain && (c == 'e' || c == 'E') then
        match cs with
        | [] => 1
        | s :: rest =>
          if (s == '+' || s == '-') && digitNext rest then 2 + numberLength plain false rest
          else 1 + numberLength plain false (s :: rest)
      else 1 + numberLength plain whole cs
    else if c == '.' && whole && digitNext cs then 1 + numberLength plain false cs
    else 0

/-- The inside of a string literal : its value and the length of its source up to the closing quote,
or the fault that ends it. -/
inductive Body where
  | closed (value : List Char) (length : Nat)
  | broken (fault : LexFault) (length : Nat)
deriving DecidableEq, Repr

/-- A body that starts with a character `c` whose source has length `n`. -/
def Body.push (c : Char) (n : Nat) : Body → Body
  | .closed value length => .closed (c :: value) (n + length)
  | .broken why length => .broken why (n + length)

/-- Reads the inside of a string literal. -/
def stringBody : List Char → Body
  | [] => .broken .unterminatedString 0
  | '"' :: _ => .closed [] 1
  | ['\\'] => .broken .unterminatedString 1
  | '\\' :: e :: cs =>
    match unescape? e with
    | some c => (stringBody cs).push c 2
    | none => .broken (.unknownEscape e) 2
  | c :: cs => (stringBody cs).push c 1

/-- Reads a string literal after its opening quote. -/
def scanString (cs : List Char) : Scan :=
  match stringBody cs with
  | .closed value length => .lexeme (.string (String.ofList value)) (1 + length)
  | .broken why length => .fault why (1 + length)

/-- What follows a character literal that does not close after its character : it is too long if a
quote stands on the same line. -/
def unclosedChar (n : Nat) (cs : List Char) : Scan :=
  let inside := cs.takeWhile fun c => c != '\'' && !isLineEnd c
  match cs.drop inside.length with
  | '\'' :: _ => .fault .charTooLong (n + inside.length + 1)
  | _ => .fault .unterminatedChar (n + inside.length)

/-- Reads the end of a character literal of which `n` characters were read. -/
def closeChar (value : Char) (n : Nat) : List Char → Scan
  | '\'' :: _ => .lexeme (.char value) (n + 1)
  | cs => unclosedChar n cs

/-- Reads a character literal after its opening quote. -/
def scanChar : List Char → Scan
  | [] => .fault .unterminatedChar 1
  | '\'' :: _ => .fault .emptyChar 2
  | ['\\'] => .fault .unterminatedChar 2
  | '\\' :: e :: cs =>
    match unescape? e with
    | some c => closeChar c 3 cs
    | none => .fault (.unknownEscape e) 3
  | c :: cs => if isLineEnd c then .fault .newlineInChar 1 else closeChar c 2 cs

/-- The length of a block comment after its opening mark, closing mark included. -/
def blockLength? : List Char → Option Nat
  | [] => none
  | '*' :: '/' :: _ => some 2
  | _ :: cs => (blockLength? cs).map (1 + ·)

/-- The first mark of the list that a text starts with. -/
def operator? (cs : List Char) : Option String :=
  operators.find? fun op => op.toList.isPrefixOf cs

end Scan

/-- Reads the lexeme at the start of a text; nothing at its end. -/
def scan : List Char → Option Scan
  | [] => none
  | c :: cs =>
    some <|
      if Scan.startsWord c then
        Scan.taken Scan.wordLexeme (c :: cs) (1 + (cs.takeWhile Scan.inWord).length)
      else if Text.isDigit c then
        let plain := !Scan.hasRadix (c :: cs)
        Scan.taken .number (c :: cs) (1 + Scan.numberLength plain plain cs)
      else if c == '"' then Scan.scanString cs
      else if c == '\'' then Scan.scanChar cs
      else if c == '\n' then Scan.taken .lineBreak (c :: cs) 1
      else if c == '\r' then Scan.taken .lineBreak (c :: cs) (if cs.head? = some '\n' then 2 else 1)
      else if Text.isBlank c then
        Scan.taken .blank (c :: cs) (1 + (cs.takeWhile Scan.isInlineBlank).length)
      else if c == '/' && cs.head? = some '/' then
        Scan.taken .comment (c :: cs) (1 + (cs.takeWhile fun d => !Scan.isLineEnd d).length)
      else if c == '/' && cs.head? = some '*' then
        match Scan.blockLength? (cs.drop 1) with
        | some n => Scan.taken .comment (c :: cs) (2 + n)
        | none => .fault .unterminatedComment (c :: cs).length
      else
        match Scan.operator? (c :: cs) with
        | some op => .lexeme (.punctuation op) op.length
        | none => .fault (.unrecognized c) 1

/-- A token, or the fault that ends the sequence. -/
abbrev Item := Except LexError Token

/-- A walk over a buffer, token by token. -/
structure Tokenizer where
  cursor : Cursor
  last : Option Token
  failed : Bool
deriving Repr

namespace Tokenizer

/-- The walk at the start of a buffer. -/
def start (b : Buffer) : Tokenizer :=
  ⟨Cursor.start b, none, false⟩

/-- The next item. There is none at the end of the text or after a fault. -/
def next (t : Tokenizer) : Option Item × Tokenizer :=
  if t.failed then (none, t)
  else
    match scan t.cursor.rest with
    | none => (none, t)
    | some (.lexeme lexeme length) =>
      let cursor := t.cursor.advance length
      let token := ⟨lexeme, t.cursor.location, cursor.location⟩
      (some (.ok token), { t with cursor := cursor, last := some token })
    | some (.fault fault length) =>
      let cursor := t.cursor.advance length
      let error := ⟨fault, t.cursor.location, cursor.location⟩
      (some (.error error), { t with cursor := cursor, failed := true })

/-- The first items of a walk, at most `n`. -/
def items : Nat → Tokenizer → List Item
  | 0, _ => []
  | n + 1, t =>
    match t.next with
    | (none, _) => []
    | (some item, t') => item :: items n t'

end Tokenizer

/-- All items of a buffer. Each takes at least one character, so there are no more than
characters. -/
def Buffer.items (b : Buffer) : List Item :=
  (Tokenizer.start b).items b.chars.length

/-- The tokens of a sequence of items, or its first fault. -/
def Item.collect : List Item → Except LexError (List Token)
  | [] => .ok []
  | .error e :: _ => .error e
  | .ok t :: rest => (Item.collect rest).map (t :: ·)

/-- All tokens of a buffer. -/
def Buffer.allTokens (b : Buffer) : Except LexError (List Token) :=
  Item.collect b.items

end Rill
