import Mathlib.Data.List.Forall2
import Rill.Grammar.Statement
import Rill.Proofs.Stream

/-!
# How trees are written

`Expr.spelling` and `Stmt.spelling` write a tree as the sequence of its words, in order. A
`TokenPattern` is one of them : a lexeme, or the place of a literal, where any token may stand that
denotes it. `Fits ts ms` says that the tokens `ts` match the patterns `ms` one by one.

`Expr.ReadFrom` and `Stmt.ReadFrom` say more of a tree and the tokens from which it was read :
besides the words they fix the range of every node by the ranges of its tokens. What a parser
returns stands in this relation to the tokens it took; `Expr.fits_of_readFrom` and
`Stmt.fits_of_readFrom` forget the ranges.
-/

namespace Rill

/-- A word of a written tree : a given lexeme, or any that denotes a given literal. -/
inductive TokenPattern where
  | word (lexeme : Lexeme)
  | literal (value : Literal)

namespace TokenPattern

/-- A piece of punctuation. -/
abbrev punct (text : String) : TokenPattern := .word (.punctuation text)

/-- A name, or a word of the grammar. -/
abbrev ident (name : String) : TokenPattern := .word (.identifier name)

/-- Whether a token matches a pattern. -/
def Fits : TokenPattern → Token → Prop
  | .word lexeme, t => t.lexeme = lexeme
  | .literal value, t => Parse.literalOf? t = .ok (some value)

/-- A lexeme that denotes no literal fits its own pattern only. -/
theorem Fits.lexeme_ne {m : TokenPattern} {t : Token} (h : m.Fits t) {l : Lexeme}
    (hl : ∀ r, Parse.literalOf? ⟨l, r⟩ = .ok none) (hne : m ≠ .word l) : t.lexeme ≠ l := by
  rintro rfl
  cases m with
  | word lexeme => exact hne (congrArg word (h : t.lexeme = lexeme).symm)
  | literal value => simp [Fits, hl t.range] at h

/-- A token that matches a word is no other mark. -/
theorem Fits.isPunctuation_eq_false {m : TokenPattern} {t : Token} (h : m.Fits t) {text : String}
    (hne : m ≠ .punct text) : t.isPunctuation text = false :=
  beq_eq_false_iff_ne.2 (h.lexeme_ne (fun _ => rfl) hne)

theorem Fits.isIdentifier_eq_false {m : TokenPattern} {t : Token} (h : m.Fits t) {name : String}
    (hne : m ≠ .ident name) : t.isIdentifier name = false :=
  beq_eq_false_iff_ne.2 (h.lexeme_ne (fun _ => rfl) hne)

end TokenPattern

/-- The tokens `ts` match the patterns `ms` one by one. -/
abbrev Fits (ts : List Token) (ms : List TokenPattern) : Prop :=
  List.Forall₂ (fun t m => TokenPattern.Fits m t) ts ms

/-- Tokens in sequence match patterns in sequence. -/
theorem Fits.append {ts us : List Token} {ms ns : List TokenPattern} (h : Fits ts ms)
    (h' : Fits us ns) :
    Fits (ts ++ us) (ms ++ ns) :=
  List.rel_append h h'

/-- Tokens that match patterns in sequence are in sequence themselves. -/
theorem fits_append_iff {ts : List Token} {ms ns : List TokenPattern} :
    Fits ts (ms ++ ns) ↔ ∃ us vs, ts = us ++ vs ∧ Fits us ms ∧ Fits vs ns := by
  constructor
  · intro h
    exact ⟨ts.take ms.length, ts.drop ms.length, (List.take_append_drop _ _).symm,
      List.forall₂_take_append _ _ _ h, List.forall₂_drop_append _ _ _ h⟩
  · rintro ⟨us, vs, rfl, hus, hvs⟩
    exact hus.append hvs

theorem fits_cons_iff {ts : List Token} {m : TokenPattern} {ms : List TokenPattern} :
    Fits ts (m :: ms) ↔ ∃ t us, ts = t :: us ∧ m.Fits t ∧ Fits us ms := by
  cases ts with
  | nil => simp [Fits]
  | cons t us => simp [Fits]

theorem fits_nil_iff {ts : List Token} : Fits ts [] ↔ ts = [] := by
  simp [Fits]

/-- Tokens that match a given lexeme first start with that lexeme, at some place. -/
theorem fits_word_iff {ts : List Token} {lexeme : Lexeme} {ms : List TokenPattern} :
    Fits ts (.word lexeme :: ms) ↔ ∃ r us, ts = ⟨lexeme, r⟩ :: us ∧ Fits us ms := by
  rw [fits_cons_iff]
  constructor
  · rintro ⟨⟨_, r⟩, us, rfl, rfl, hus⟩
    exact ⟨r, us, rfl, hus⟩
  · rintro ⟨r, us, rfl, hus⟩
    exact ⟨_, us, rfl, rfl, hus⟩

/-! ## Expressions -/

mutual

/-- An expression as the sequence of its words. -/
def Expr.spelling : Expr → List TokenPattern
  | .literal value _ => [.literal value]
  | .name ident => [.ident ident.name]
  | .paren inner _ => .punct "(" :: (inner.spelling ++ [.punct ")"])
  | .unary op operand _ =>
    if op.isPost then operand.spelling ++ [.punct op.text] else .punct op.text :: operand.spelling
  | .binary op lhs rhs _ => lhs.spelling ++ .punct op.text :: rhs.spelling
  | .ternary c a b _ => c.spelling ++ .punct "?" :: (a.spelling ++ .punct ":" :: b.spelling)
  | .member object field _ => object.spelling ++ [.punct ".", .ident field.name]
  | .subscript object index _ => object.spelling ++ .punct "[" :: (index.spelling ++ [.punct "]"])
  | .call callee args _ => callee.spelling ++ .punct "(" :: (Expr.argSpelling args ++ [.punct ")"])

/-- Expressions with commas in between. -/
def Expr.argSpelling : List Expr → List TokenPattern
  | [] => []
  | [e] => e.spelling
  | e :: next :: rest => e.spelling ++ .punct "," :: Expr.argSpelling (next :: rest)

end

mutual

/-- The expression was read from the tokens : it is written as they are, and each of its nodes has
the range that its tokens give it. -/
def Expr.ReadFrom : Expr → List Token → Prop
  | .literal value range, ts =>
    ∃ t : Token, ts = [t] ∧ Parse.literalOf? t = .ok (some value) ∧ range = t.range
  | .name ident, ts => ts = [⟨.identifier ident.name, ident.range⟩]
  | .paren inner range, ts => ∃ us l r,
    ts = ⟨.punctuation "(", l⟩ :: (us ++ [⟨.punctuation ")", r⟩]) ∧ inner.ReadFrom us ∧
      range = l.merge r
  | .unary op operand range, ts =>
    if op.isPost then ∃ us r, ts = us ++ [⟨.punctuation op.text, r⟩] ∧ operand.ReadFrom us ∧
      range = operand.range.merge r
    else ∃ us l, ts = ⟨.punctuation op.text, l⟩ :: us ∧ operand.ReadFrom us ∧
      range = l.merge operand.range
  | .binary op lhs rhs range, ts => ∃ us vs r,
    ts = us ++ ⟨.punctuation op.text, r⟩ :: vs ∧ lhs.ReadFrom us ∧ rhs.ReadFrom vs ∧
      range = lhs.range.merge rhs.range
  | .ternary c a b range, ts => ∃ us vs ws r r',
    ts = us ++ ⟨.punctuation "?", r⟩ :: (vs ++ ⟨.punctuation ":", r'⟩ :: ws) ∧ c.ReadFrom us ∧
      a.ReadFrom vs ∧ b.ReadFrom ws ∧ range = c.range.merge b.range
  | .member object field range, ts => ∃ us r,
    ts = us ++ [⟨.punctuation ".", r⟩, ⟨.identifier field.name, field.range⟩] ∧ object.ReadFrom us ∧
      range = object.range.merge field.range
  | .subscript object index range, ts => ∃ us vs l r,
    ts = us ++ ⟨.punctuation "[", l⟩ :: (vs ++ [⟨.punctuation "]", r⟩]) ∧ object.ReadFrom us ∧
      index.ReadFrom vs ∧ range = object.range.merge r
  | .call callee args range, ts => ∃ us vs l r,
    ts = us ++ ⟨.punctuation "(", l⟩ :: (vs ++ [⟨.punctuation ")", r⟩]) ∧ callee.ReadFrom us ∧
      Expr.ArgsReadFrom args vs ∧ range = callee.range.merge r

/-- Expressions read from tokens, with commas in between. -/
def Expr.ArgsReadFrom : List Expr → List Token → Prop
  | [], ts => ts = []
  | [e], ts => e.ReadFrom ts
  | e :: next :: rest, ts => ∃ us vs r,
    ts = us ++ ⟨.punctuation ",", r⟩ :: vs ∧ e.ReadFrom us ∧ Expr.ArgsReadFrom (next :: rest) vs

end

mutual

/-- An expression is written with the tokens it was read from. -/
theorem Expr.fits_of_readFrom : ∀ (e : Expr) {ts : List Token}, e.ReadFrom ts → Fits ts e.spelling
  | .literal value range, ts, h => by
    obtain ⟨t, rfl, ht, -⟩ := h
    exact .cons ht .nil
  | .name ident, ts, h => by
    obtain rfl := h
    exact .cons rfl .nil
  | .paren inner range, ts, h => by
    obtain ⟨us, l, r, rfl, hus, -⟩ := h
    exact .cons rfl ((inner.fits_of_readFrom hus).append (.cons rfl .nil))
  | .unary op operand range, ts, h => by
    by_cases hpost : op.isPost
    · rw [Expr.ReadFrom, if_pos hpost] at h
      obtain ⟨us, r, rfl, hus, -⟩ := h
      rw [Expr.spelling, if_pos hpost]
      exact (operand.fits_of_readFrom hus).append (.cons rfl .nil)
    · rw [Expr.ReadFrom, if_neg hpost] at h
      obtain ⟨us, l, rfl, hus, -⟩ := h
      rw [Expr.spelling, if_neg hpost]
      exact .cons rfl (operand.fits_of_readFrom hus)
  | .binary op lhs rhs range, ts, h => by
    obtain ⟨us, vs, r, rfl, hus, hvs, -⟩ := h
    exact (lhs.fits_of_readFrom hus).append (.cons rfl (rhs.fits_of_readFrom hvs))
  | .ternary c a b range, ts, h => by
    obtain ⟨us, vs, ws, r, r', rfl, hus, hvs, hws, -⟩ := h
    exact (c.fits_of_readFrom hus).append
      (.cons rfl ((a.fits_of_readFrom hvs).append (.cons rfl (b.fits_of_readFrom hws))))
  | .member object field range, ts, h => by
    obtain ⟨us, r, rfl, hus, -⟩ := h
    exact (object.fits_of_readFrom hus).append (.cons rfl (.cons rfl .nil))
  | .subscript object index range, ts, h => by
    obtain ⟨us, vs, l, r, rfl, hus, hvs, -⟩ := h
    exact (object.fits_of_readFrom hus).append
      (.cons rfl ((index.fits_of_readFrom hvs).append (.cons rfl .nil)))
  | .call callee args range, ts, h => by
    obtain ⟨us, vs, l, r, rfl, hus, hvs, -⟩ := h
    exact (callee.fits_of_readFrom hus).append
      (.cons rfl ((Expr.fits_of_argsReadFrom args hvs).append (.cons rfl .nil)))

theorem Expr.fits_of_argsReadFrom :
    ∀ (es : List Expr) {ts : List Token}, Expr.ArgsReadFrom es ts → Fits ts (Expr.argSpelling es)
  | [], ts, h => by
    obtain rfl := h
    exact .nil
  | [e], ts, h => e.fits_of_readFrom h
  | e :: next :: rest, ts, h => by
    obtain ⟨us, vs, r, rfl, hus, hvs⟩ := h
    exact (e.fits_of_readFrom hus).append (.cons rfl (Expr.fits_of_argsReadFrom (next :: rest) hvs))

end

/-! ## Parts of statements -/

/-- An expression that may be missing. -/
def Expr.spelling? : Option Expr → List TokenPattern
  | none => []
  | some e => e.spelling

/-- An expression that may be missing, read from tokens. -/
def Expr.ReadFrom? : Option Expr → List Token → Prop
  | none, ts => ts = []
  | some e, ts => e.ReadFrom ts

/-- An initial value and the mark before it. -/
def Expr.initSpelling : Option Expr → List TokenPattern
  | none => []
  | some e => .punct "=" :: e.spelling

/-- An initial value read from tokens. -/
def Expr.InitReadFrom : Option Expr → List Token → Prop
  | none, ts => ts = []
  | some e, ts => ∃ us r, ts = ⟨.punctuation "=", r⟩ :: us ∧ e.ReadFrom us

/-- A type annotation. -/
def TypeRef.spelling : Option TypeRef → List TokenPattern
  | none => []
  | some (.builtin type) => [.word (.keyword (.type type))]
  | some (.named ident) => [.ident ident.name]

/-- A type annotation read from tokens. -/
def TypeRef.ReadFrom : Option TypeRef → List Token → Prop
  | none, ts => ts = []
  | some (.builtin type), ts => ∃ r, ts = [⟨.keyword (.type type), r⟩]
  | some (.named ident), ts => ts = [⟨.identifier ident.name, ident.range⟩]

/-- The word of a variable or a constant. -/
def Variable.word (constant : Bool) : String :=
  if constant then "const" else "var"

/-- A variable or a constant. -/
def Variable.spelling (v : Variable) : List TokenPattern :=
  .ident (word v.constant) :: (TypeRef.spelling v.type ++ .ident v.ident.name ::
    (Expr.initSpelling v.init ++ [.punct ";"]))

/-- A variable or a constant read from tokens. -/
def Variable.ReadFrom (v : Variable) (ts : List Token) : Prop :=
  ∃ us vs l r, ts =
    ⟨.identifier (word v.constant), l⟩ :: (us ++ ⟨.identifier v.ident.name, v.ident.range⟩ ::
    (vs ++ [⟨.punctuation ";", r⟩])) ∧ TypeRef.ReadFrom v.type us ∧ Expr.InitReadFrom v.init vs ∧
      v.range = l.merge r

/-- A parameter. -/
def Variable.paramSpelling (v : Variable) : List TokenPattern :=
  TypeRef.spelling v.type ++ [.ident v.ident.name]

/-- A parameter read from tokens. -/
def Variable.ParamReadFrom (v : Variable) (ts : List Token) : Prop :=
  ∃ us, ts = us ++ [⟨.identifier v.ident.name, v.ident.range⟩] ∧ TypeRef.ReadFrom v.type us ∧
    v.init = none ∧ v.constant = false ∧ v.range = Parse.paramRange v.type v.ident

/-- Parameters with commas in between. -/
def Variable.paramsSpelling : List Variable → List TokenPattern
  | [] => []
  | [v] => v.paramSpelling
  | v :: next :: rest => v.paramSpelling ++ .punct "," :: Variable.paramsSpelling (next :: rest)

theorem Expr.fits_of_readFrom? {e : Option Expr} {ts : List Token} (h : Expr.ReadFrom? e ts) :
    Fits ts (Expr.spelling? e) := by
  cases e with
  | none =>
    obtain rfl := h
    exact .nil
  | some e => exact e.fits_of_readFrom h

theorem Expr.fits_of_initReadFrom {e : Option Expr} {ts : List Token} (h : Expr.InitReadFrom e ts) :
    Fits ts (Expr.initSpelling e) := by
  cases e with
  | none =>
    obtain rfl := h
    exact .nil
  | some e =>
    obtain ⟨us, r, rfl, hus⟩ := h
    exact .cons rfl (e.fits_of_readFrom hus)

/-- A type is written with the token it was read from. -/
theorem TypeRef.fits_of_readFrom {type : Option TypeRef} {ts : List Token}
    (h : TypeRef.ReadFrom type ts) : Fits ts (TypeRef.spelling type) := by
  match type, h with
  | none, h =>
    obtain rfl := h
    exact .nil
  | some (.builtin _), h =>
    obtain ⟨r, rfl⟩ := h
    exact .cons rfl .nil
  | some (.named _), h =>
    obtain rfl := h
    exact .cons rfl .nil

/-- A variable is written with the tokens it was read from. -/
theorem Variable.fits_of_readFrom {v : Variable} {ts : List Token} (h : v.ReadFrom ts) :
    Fits ts v.spelling := by
  obtain ⟨us, vs, l, r, rfl, hus, hvs, -⟩ := h
  exact .cons rfl ((TypeRef.fits_of_readFrom hus).append
    (.cons rfl ((Expr.fits_of_initReadFrom hvs).append (.cons rfl .nil))))

theorem Variable.fits_of_paramReadFrom {v : Variable} {ts : List Token} (h : v.ParamReadFrom ts) :
    Fits ts v.paramSpelling := by
  obtain ⟨us, rfl, hus, -⟩ := h
  exact (TypeRef.fits_of_readFrom hus).append (.cons rfl .nil)

/-- Parameters are written with the tokens they were read from. -/
theorem Variable.fits_of_separated {params : List Variable} {ts : List Token}
    (h : Parse.Separated Variable.ParamReadFrom params ts) :
    Fits ts (Variable.paramsSpelling params) := by
  induction h with
  | nil => exact .nil
  | one hx => exact fits_of_paramReadFrom hx
  | cons hx _ ih => exact (fits_of_paramReadFrom hx).append (.cons rfl ih)

/-! ## Statements and declarations -/

mutual

/-- A statement as the sequence of its words. -/
def Stmt.spelling : Stmt → List TokenPattern
  | .expr e _ => e.spelling ++ [.punct ";"]
  | .decl d _ => d.spelling
  | .block b => b.spelling
  | .ifElse c a b _ =>
    .ident "if" :: .punct "(" :: (c.spelling ++ .punct ")" :: (a.spelling ++ Stmt.elseSpelling b))
  | .whileDo c body _ => .ident "while" :: .punct "(" :: (c.spelling ++ .punct ")" :: body.spelling)
  | .doWhile body c _ => .ident "do" :: (body.spelling ++ .ident "while" :: .punct "(" ::
    (c.spelling ++ [.punct ")", .punct ";"]))
  | .forLoop init c step body _ _ => .ident "for" :: .punct "(" :: (Stmt.initSpelling init ++
    (Expr.spelling? c ++ .punct ";" :: (Expr.spelling? step ++ .punct ")" :: body.spelling)))
  | .switch subject body _ =>
    .ident "switch" :: .punct "(" :: (subject.spelling ++ .punct ")" :: body.spelling)
  | .caseLabel value _ => .ident "case" :: (value.spelling ++ [.punct ":"])
  | .defaultLabel _ => [.ident "default", .punct ":"]
  | .continue _ => [.ident "continue", .punct ";"]
  | .break _ => [.ident "break", .punct ";"]
  | .return value _ => .ident "return" :: (Expr.spelling? value ++ [.punct ";"])

/-- The second branch of an `if`. -/
def Stmt.elseSpelling : Option Stmt → List TokenPattern
  | none => []
  | some s => .ident "else" :: s.spelling

/-- The first part of a `for` loop, which ends in a semicolon of its own unless it is missing. -/
def Stmt.initSpelling : Option Stmt → List TokenPattern
  | none => [.punct ";"]
  | some s => s.spelling

/-- Statements one after the other. -/
def Stmt.allSpelling : List Stmt → List TokenPattern
  | [] => []
  | s :: rest => s.spelling ++ Stmt.allSpelling rest

/-- Statements in braces. -/
def Block.spelling : Block → List TokenPattern
  | ⟨stmts, _, _⟩ => .punct "\x7b" :: (Stmt.allSpelling stmts ++ [.punct "\x7d"])

/-- A declaration as the sequence of its words. -/
def Decl.spelling : Decl → List TokenPattern
  | .var v => v.spelling
  | .func f => f.spelling
  | .group g => g.spelling

/-- Declarations one after the other. -/
def Decl.allSpelling : List Decl → List TokenPattern
  | [] => []
  | d :: rest => d.spelling ++ Decl.allSpelling rest

/-- A function as the sequence of its words. -/
def Func.spelling : Func → List TokenPattern
  | ⟨_, ident, type, params, body, _, _, _⟩ =>
    .ident "func" :: (TypeRef.spelling type ++ .ident ident.name ::
      .punct "(" :: (Variable.paramsSpelling params ++ .punct ")" :: body.spelling))

/-- A class or a namespace as the sequence of its words. -/
def Group.spelling : Group → List TokenPattern
  | ⟨kind, _, ident, members, _, _, _, _⟩ => .ident (Parse.groupWord kind) :: .ident ident.name ::
    .punct "\x7b" :: (Decl.allSpelling members ++ [.punct "\x7d"])

end

mutual

/-- The statement was read from the tokens : it is written as they are, and each of its nodes has
the range that its tokens give it. -/
def Stmt.ReadFrom : Stmt → List Token → Prop
  | .expr e range, ts => ∃ us r,
    ts = us ++ [⟨.punctuation ";", r⟩] ∧ e.ReadFrom us ∧ range = e.range.merge r
  | .decl d range, ts => d.ReadFrom ts ∧ range = d.range
  | .block b, ts => b.ReadFrom ts
  | .ifElse c a b range, ts => ∃ us vs ws s l r,
    ts = ⟨.identifier "if", s⟩ :: ⟨.punctuation "(", l⟩ ::
      (us ++ ⟨.punctuation ")", r⟩ :: (vs ++ ws)) ∧
      c.ReadFrom us ∧ a.ReadFrom vs ∧ Stmt.ElseReadFrom (s.merge a.range) b ws range
  | .whileDo c body range, ts => ∃ us vs s l r,
    ts = ⟨.identifier "while", s⟩ :: ⟨.punctuation "(", l⟩ :: (us ++ ⟨.punctuation ")", r⟩ :: vs) ∧
      c.ReadFrom us ∧ body.ReadFrom vs ∧ range = s.merge body.range
  | .doWhile body c range, ts => ∃ us vs s w l r e,
    ts = ⟨.identifier "do", s⟩ :: (us ++ ⟨.identifier "while", w⟩ :: ⟨.punctuation "(", l⟩ ::
      (vs ++ [⟨.punctuation ")", r⟩, ⟨.punctuation ";", e⟩])) ∧
      body.ReadFrom us ∧ c.ReadFrom vs ∧ range = s.merge e
  | .forLoop init c step body _ range, ts => ∃ us vs ws xs s l m r,
    ts = ⟨.identifier "for", s⟩ :: ⟨.punctuation "(", l⟩ :: (us ++ (vs ++ ⟨.punctuation ";", m⟩ ::
      (ws ++ ⟨.punctuation ")", r⟩ :: xs))) ∧
      Stmt.InitReadFrom init us ∧ Expr.ReadFrom? c vs ∧ Expr.ReadFrom? step ws ∧ body.ReadFrom xs ∧
      range = s.merge body.range
  | .switch subject body range, ts => ∃ us vs s l r,
    ts = ⟨.identifier "switch", s⟩ :: ⟨.punctuation "(", l⟩ :: (us ++ ⟨.punctuation ")", r⟩ :: vs) ∧
      subject.ReadFrom us ∧ body.ReadFrom vs ∧ range = s.merge body.range
  | .caseLabel value range, ts => ∃ us s r,
    ts = ⟨.identifier "case", s⟩ :: (us ++ [⟨.punctuation ":", r⟩]) ∧ value.ReadFrom us ∧
      range = s.merge r
  | .defaultLabel range, ts => ∃ s r,
    ts = [⟨.identifier "default", s⟩, ⟨.punctuation ":", r⟩] ∧ range = s.merge r
  | .continue range, ts => ∃ s r,
    ts = [⟨.identifier "continue", s⟩, ⟨.punctuation ";", r⟩] ∧ range = s.merge r
  | .break range, ts => ∃ s r,
    ts = [⟨.identifier "break", s⟩, ⟨.punctuation ";", r⟩] ∧ range = s.merge r
  | .return value range, ts => ∃ us s r,
    ts = ⟨.identifier "return", s⟩ :: (us ++ [⟨.punctuation ";", r⟩]) ∧ Expr.ReadFrom? value us ∧
      range = s.merge r

/-- The second branch of an `if`, which extends the range `front` of what stands before
it to `range`. -/
def Stmt.ElseReadFrom (front : Range) : Option Stmt → List Token → Range → Prop
  | none, ts, range => ts = [] ∧ range = front
  | some s, ts, range => ∃ us w,
    ts = ⟨.identifier "else", w⟩ :: us ∧ s.ReadFrom us ∧ range = front.merge s.range

/-- The first part of a `for` loop read from tokens. -/
def Stmt.InitReadFrom : Option Stmt → List Token → Prop
  | none, ts => ∃ r, ts = [⟨.punctuation ";", r⟩]
  | some s, ts => s.ReadFrom ts

/-- Statements read from tokens one after the other. -/
def Stmt.AllReadFrom : List Stmt → List Token → Prop
  | [], ts => ts = []
  | s :: rest, ts => ∃ us vs, ts = us ++ vs ∧ s.ReadFrom us ∧ Stmt.AllReadFrom rest vs

/-- Statements in braces read from tokens. -/
def Block.ReadFrom : Block → List Token → Prop
  | ⟨stmts, _, range⟩, ts => ∃ us l r,
    ts = ⟨.punctuation "\x7b", l⟩ :: (us ++ [⟨.punctuation "\x7d", r⟩]) ∧
      Stmt.AllReadFrom stmts us ∧
      range = l.merge r

/-- A declaration read from tokens. -/
def Decl.ReadFrom : Decl → List Token → Prop
  | .var v, ts => v.ReadFrom ts
  | .func f, ts => f.ReadFrom ts
  | .group g, ts => g.ReadFrom ts

/-- Declarations read from tokens one after the other. -/
def Decl.AllReadFrom : List Decl → List Token → Prop
  | [], ts => ts = []
  | d :: rest, ts => ∃ us vs, ts = us ++ vs ∧ d.ReadFrom us ∧ Decl.AllReadFrom rest vs

/-- A function read from tokens. -/
def Func.ReadFrom : Func → List Token → Prop
  | ⟨_, ident, type, params, body, _, _, range⟩, ts => ∃ us vs ws s l r,
    ts = ⟨.identifier "func", s⟩ ::
      (us ++ ⟨.identifier ident.name, ident.range⟩ :: ⟨.punctuation "(", l⟩ ::
      (vs ++ ⟨.punctuation ")", r⟩ :: ws)) ∧
      TypeRef.ReadFrom type us ∧ Parse.Separated Variable.ParamReadFrom params vs ∧
        body.ReadFrom ws ∧
      range = s.merge body.range

/-- A class or a namespace read from tokens. -/
def Group.ReadFrom : Group → List Token → Prop
  | ⟨kind, _, ident, members, membersRange, _, _, range⟩, ts => ∃ us s l r,
    ts = ⟨.identifier (Parse.groupWord kind), s⟩ :: ⟨.identifier ident.name, ident.range⟩ ::
      ⟨.punctuation "\x7b", l⟩ :: (us ++ [⟨.punctuation "\x7d", r⟩]) ∧
      Decl.AllReadFrom members us ∧ membersRange = l.merge r ∧ range = s.merge membersRange

end

mutual

/-- A statement is written with the tokens it was read from. -/
theorem Stmt.fits_of_readFrom : ∀ (s : Stmt) {ts : List Token}, s.ReadFrom ts → Fits ts s.spelling
  | .expr e range, ts, h => by
    obtain ⟨us, r, rfl, hus, -⟩ := h
    exact (e.fits_of_readFrom hus).append (.cons rfl .nil)
  | .decl d range, ts, h => d.fits_of_readFrom h.1
  | .block b, ts, h => b.fits_of_readFrom h
  | .ifElse c a b range, ts, h => by
    obtain ⟨us, vs, ws, s, l, r, rfl, hus, hvs, hws⟩ := h
    exact .cons rfl (.cons rfl ((c.fits_of_readFrom hus).append
      (.cons rfl ((a.fits_of_readFrom hvs).append (Stmt.fits_of_elseReadFrom b hws)))))
  | .whileDo c body range, ts, h => by
    obtain ⟨us, vs, s, l, r, rfl, hus, hvs, -⟩ := h
    exact .cons rfl
      (.cons rfl ((c.fits_of_readFrom hus).append (.cons rfl (body.fits_of_readFrom hvs))))
  | .doWhile body c range, ts, h => by
    obtain ⟨us, vs, s, w, l, r, e, rfl, hus, hvs, -⟩ := h
    exact .cons rfl ((body.fits_of_readFrom hus).append (.cons rfl (.cons rfl
      ((c.fits_of_readFrom hvs).append (.cons rfl (.cons rfl .nil))))))
  | .forLoop init c step body _ range, ts, h => by
    obtain ⟨us, vs, ws, xs, s, l, m, r, rfl, hus, hvs, hws, hxs, -⟩ := h
    exact .cons rfl (.cons rfl ((Stmt.fits_of_initReadFrom init hus).append
      ((Expr.fits_of_readFrom? hvs).append (.cons rfl
        ((Expr.fits_of_readFrom? hws).append (.cons rfl (body.fits_of_readFrom hxs)))))))
  | .switch subject body range, ts, h => by
    obtain ⟨us, vs, s, l, r, rfl, hus, hvs, -⟩ := h
    exact .cons rfl (.cons rfl
      ((subject.fits_of_readFrom hus).append (.cons rfl (body.fits_of_readFrom hvs))))
  | .caseLabel value range, ts, h => by
    obtain ⟨us, s, r, rfl, hus, -⟩ := h
    exact .cons rfl ((value.fits_of_readFrom hus).append (.cons rfl .nil))
  | .defaultLabel range, ts, h | .continue range, ts, h | .break range, ts, h => by
    obtain ⟨s, r, rfl, -⟩ := h
    exact .cons rfl (.cons rfl .nil)
  | .return value range, ts, h => by
    obtain ⟨us, s, r, rfl, hus, -⟩ := h
    exact .cons rfl ((Expr.fits_of_readFrom? hus).append (.cons rfl .nil))

/-- The second branch of an `if` is written with the tokens it was read from. -/
theorem Stmt.fits_of_elseReadFrom : ∀ (s : Option Stmt) {front range : Range} {ts : List Token},
    Stmt.ElseReadFrom front s ts range → Fits ts (Stmt.elseSpelling s)
  | none, _, _, ts, h => by
    obtain ⟨rfl, -⟩ := h
    exact .nil
  | some s, _, _, ts, h => by
    obtain ⟨us, w, rfl, hus, -⟩ := h
    exact .cons rfl (s.fits_of_readFrom hus)

theorem Stmt.fits_of_initReadFrom : ∀ (s : Option Stmt) {ts : List Token},
    Stmt.InitReadFrom s ts → Fits ts (Stmt.initSpelling s)
  | none, ts, h => by
    obtain ⟨r, rfl⟩ := h
    exact .cons rfl .nil
  | some s, ts, h => s.fits_of_readFrom h

/-- Statements are written with the tokens they were read from. -/
theorem Stmt.fits_of_allReadFrom : ∀ (ss : List Stmt) {ts : List Token},
    Stmt.AllReadFrom ss ts → Fits ts (Stmt.allSpelling ss)
  | [], ts, h => by
    obtain rfl := h
    exact .nil
  | s :: rest, ts, h => by
    obtain ⟨us, vs, rfl, hus, hvs⟩ := h
    exact (s.fits_of_readFrom hus).append (Stmt.fits_of_allReadFrom rest hvs)

theorem Block.fits_of_readFrom : ∀ (b : Block) {ts : List Token}, b.ReadFrom ts → Fits ts b.spelling
  | ⟨stmts, _, _⟩, ts, h => by
    obtain ⟨us, l, r, rfl, hus, -⟩ := h
    exact .cons rfl ((Stmt.fits_of_allReadFrom stmts hus).append (.cons rfl .nil))

/-- A declaration is written with the tokens it was read from. -/
theorem Decl.fits_of_readFrom : ∀ (d : Decl) {ts : List Token}, d.ReadFrom ts → Fits ts d.spelling
  | .var _, _, h => Variable.fits_of_readFrom h
  | .func f, _, h => f.fits_of_readFrom h
  | .group g, _, h => g.fits_of_readFrom h

theorem Decl.fits_of_allReadFrom : ∀ (ds : List Decl) {ts : List Token},
    Decl.AllReadFrom ds ts → Fits ts (Decl.allSpelling ds)
  | [], ts, h => by
    obtain rfl := h
    exact .nil
  | d :: rest, ts, h => by
    obtain ⟨us, vs, rfl, hus, hvs⟩ := h
    exact (d.fits_of_readFrom hus).append (Decl.fits_of_allReadFrom rest hvs)

/-- A function is written with the tokens it was read from. -/
theorem Func.fits_of_readFrom : ∀ (f : Func) {ts : List Token}, f.ReadFrom ts → Fits ts f.spelling
  | ⟨_, _, _, _, body, _, _, _⟩, ts, h => by
    obtain ⟨us, vs, ws, s, l, r, rfl, hus, hvs, hws, -⟩ := h
    exact .cons rfl ((TypeRef.fits_of_readFrom hus).append (.cons rfl (.cons rfl
      ((Variable.fits_of_separated hvs).append (.cons rfl (body.fits_of_readFrom hws))))))

theorem Group.fits_of_readFrom : ∀ (g : Group) {ts : List Token}, g.ReadFrom ts → Fits ts g.spelling
  | ⟨_, _, _, members, _, _, _, _⟩, ts, h => by
    obtain ⟨us, s, l, r, rfl, hus, -⟩ := h
    exact .cons rfl
      (.cons rfl (.cons rfl ((Decl.fits_of_allReadFrom members hus).append (.cons rfl .nil))))

end

end Rill
