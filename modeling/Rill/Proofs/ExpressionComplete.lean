import Rill.Proofs.ExpressionSound
import Rill.Proofs.Relabel
import Rill.Syntax.Mention

/-!
# Every well-shaped expression is read

From tokens that spell a well-shaped expression, that expression is read again, up to ranges. The
steps allowed must be at least three for each token that lies ahead, and a few more.

A chain of operators is read by a loop, so the operands on the left of an operator are never read as
expressions of their own. The statement about `binary` is therefore about what follows : reading
with a bound comes to the point where `climb` goes on with the expression, whatever it then does
with the rest (`Expr.ReadAsBinary`). In the same way reading a primary expression and its suffixes
comes to the point where `suffixes` goes on (`Expr.ReadAsPrimary`).
-/

namespace Rill

open Grammar (standardOperators)

/-- The rule that a token stands for between operands. -/
def Token.rule? (t : Token) : Option BinaryRule :=
  match t.lexeme with
  | .punctuation text => standardOperators.between? text
  | _ => none

/-- The suffix that a token stands for after an operand. -/
def Token.suffix? (t : Token) : Option Suffix :=
  match t.lexeme with
  | .punctuation text => standardOperators.after? text
  | _ => none

/-- The operator that a token stands for before an operand. -/
def Token.before? (t : Token) : Option UnaryOp :=
  match t.lexeme with
  | .punctuation text => standardOperators.before? text
  | _ => none

namespace Parse

/-- The infix operator at a parser is the one that its current token stands for. -/
theorem ruleHere?_eq (p : Parser) : ruleHere? standardOperators p = p.current.bind Token.rule? := by
  unfold ruleHere? Parser.operator?
  cases p.current with
  | none => rfl
  | some t => cases t with | mk lexeme range => cases lexeme <;> rfl

/-- The suffix at a parser is the one that its current token stands for. -/
theorem suffixHere?_eq (p : Parser) :
    suffixHere? standardOperators p = p.current.bind Token.suffix? := by
  unfold suffixHere? Parser.operator?
  cases p.current with
  | none => rfl
  | some t => cases t with | mk lexeme range => cases lexeme <;> rfl

theorem beforeHere?_eq (p : Parser) :
    beforeHere? standardOperators p = p.current.bind Token.before? := by
  unfold beforeHere? Parser.operator?
  cases p.current with
  | none => rfl
  | some t => cases t with | mk lexeme range => cases lexeme <;> rfl

end Parse

/-- The mark of an infix operator stands for that operator. -/
theorem Token.rule?_of_text (rule : BinaryRule) (r : Range) :
    Token.rule? ⟨.punctuation rule.text, r⟩ = some rule :=
  Grammar.between?_eq_some.2 rfl

/-- The mark of an infix operator is no suffix. -/
theorem Token.suffix?_of_text (rule : BinaryRule) (r : Range) :
    Token.suffix? ⟨.punctuation rule.text, r⟩ = none := by
  cases rule with
  | ternary => rfl
  | binary op =>
    rcases op with _ | o | o | o | o
    · rfl
    all_goals cases o <;> rfl

/-- The tokens start with nothing that extends an expression read with the bound `bound`. -/
def StopsBefore (bound : Nat) (rest : List Token) : Prop :=
  ∀ t, rest.head? = some t → t.suffix? = none ∧ ∀ rule, t.rule? = some rule →
    rule.precedence < bound

/-- A mark that is no operator ends every expression. -/
theorem stopsBefore_punctuation {text : String} {r : Range} {rest : List Token} (bound : Nat)
    (hs : standardOperators.after? text = none) (hr : standardOperators.between? text = none) :
    StopsBefore bound (⟨.punctuation text, r⟩ :: rest) := by
  intro t ht
  obtain rfl : ⟨.punctuation text, r⟩ = t := by simpa using ht
  exact ⟨hs, fun rule hrule => by simp [Token.rule?, hr] at hrule⟩

namespace Expr

/-- The tokens start with no suffix, and with no operator that would take the last operand of the
expression. -/
def EndsBefore (e : Expr) (rest : List Token) : Prop :=
  ∀ t, rest.head? = some t → t.suffix? = none ∧
    ∀ rule next, e.rule? = some rule → t.rule? = some next → next.precedence < rule.rightBound

/-- From tokens that spell `e`, reading a primary expression and its suffixes comes to the point
where `suffixes` goes on with `e`. -/
def ReadAsPrimary (e : Expr) : Prop :=
  ∀ ⦃n : Nat⦄ ⦃p : Parser⦄ ⦃ts rest : List Token⦄ ⦃post : Expr → Parser → Prop⦄,
    Fits ts e.spelling → p.Reads (ts ++ rest) → 3 * (ts ++ rest).length + 1 ≤ n →
    (∀ k e' q, 3 * rest.length + 1 ≤ k → e'.bare = e.bare → q.Reads rest →
      (Parse.suffixes standardOperators k e').Succeeds q post) →
    Parse.beforeHere? standardOperators p = none ∧
      (Parse.primary standardOperators n >>= Parse.suffixes standardOperators n).Succeeds p post

/-- From tokens that spell `e`, with no suffix after them, `e` is read as an operand. -/
def ReadAsOperand (e : Expr) : Prop :=
  ∀ ⦃n : Nat⦄ ⦃p : Parser⦄ ⦃ts rest : List Token⦄,
    Fits ts e.spelling → p.Reads (ts ++ rest) → 3 * (ts ++ rest).length + 2 ≤ n →
    (∀ t, rest.head? = some t → t.suffix? = none) →
    (Parse.operand standardOperators n).Succeeds p fun e' q => e'.bare = e.bare ∧ q.Reads rest

/-- From tokens that spell `e`, with nothing after them that takes a part of it, reading with a
bound that `e` meets comes to the point where `climb` goes on with `e`. -/
def ReadAsBinary (e : Expr) : Prop :=
  ∀ ⦃n bound : Nat⦄ ⦃p : Parser⦄ ⦃ts rest : List Token⦄ ⦃post : Expr → Parser → Prop⦄,
    Fits ts e.spelling → p.Reads (ts ++ rest) → 3 * (ts ++ rest).length + 3 ≤ n → e.BindsAt bound →
    e.EndsBefore rest →
    (∀ k e' q, 3 * rest.length + 1 ≤ k → e'.bare = e.bare → q.Reads rest →
      (Parse.climb standardOperators k e' bound).Succeeds q post) →
    (Parse.binary standardOperators n bound).Succeeds p post

end Expr

/-- The marks that may start an expression. -/
def startMarks : List String := ["(", "!", "+", "-", "++", "--"]

theorem UnaryOp.text_mem_startMarks {op : UnaryOp} (h : op.isPost = false) :
    op.text ∈ startMarks := by
  rcases op with _ | _ | _ | o | o
  · decide
  · decide
  · decide
  · cases o <;> decide
  · simp [UnaryOp.isPost] at h

/-- A word that may start the expression : a literal, one of its names or a mark. -/
def TokenPattern.Starts (m : TokenPattern) (e : Expr) : Prop :=
  (∃ value, m = .literal value) ∨ (∃ i, Mention.ident i ∈ e.mentions ∧ m = .ident i.name) ∨
    ∃ text ∈ startMarks, m = .punct text

theorem TokenPattern.Starts.mono {m : TokenPattern} {e e' : Expr} (h : m.Starts e)
    (hsub : ∀ x ∈ e.mentions, x ∈ e'.mentions) : m.Starts e' := by
  rcases h with h | ⟨i, hi, hm⟩ | h
  · exact .inl h
  · exact .inr (.inl ⟨i, hsub _ hi, hm⟩)
  · exact .inr (.inr h)

/-- An expression does not start with a mark that is none of those which may start one. -/
theorem TokenPattern.Starts.ne_punct {m : TokenPattern} {e : Expr} (h : m.Starts e) {text : String}
    (htext : text ∉ startMarks) : m ≠ .punct text := by
  rcases h with ⟨value, rfl⟩ | ⟨i, -, rfl⟩ | ⟨text', hmem, rfl⟩
  · simp
  · simp
  · rintro ⟨⟩
    exact htext hmem

/-- The first word of an expression starts it. -/
theorem Expr.starts_spelling (e : Expr) : ∃ m ms, e.spelling = m :: ms ∧ m.Starts e := by
  cases e with
  | literal value range => exact ⟨_, _, rfl, .inl ⟨value, rfl⟩⟩
  | name ident => exact ⟨_, _, rfl, .inr (.inl ⟨ident, by simp [mentions], rfl⟩)⟩
  | paren inner range => exact ⟨_, _, rfl, .inr (.inr ⟨"(", by decide, rfl⟩)⟩
  | unary op operand range =>
    by_cases hop : op.isPost
    · obtain ⟨m, ms, heq, hm⟩ := operand.starts_spelling
      exact ⟨m, _, by rw [spelling, if_pos hop, heq, List.cons_append], hm.mono fun x hx => hx⟩
    · refine ⟨_, _, by rw [spelling, if_neg hop], .inr (.inr ⟨op.text, ?_, rfl⟩)⟩
      exact UnaryOp.text_mem_startMarks (by simpa using hop)
  | binary op lhs rhs range =>
    obtain ⟨m, ms, heq, hm⟩ := lhs.starts_spelling
    exact ⟨m, _, by rw [spelling, heq, List.cons_append],
      hm.mono fun x hx => by simp [mentions, hx]⟩
  | ternary c a b range =>
    obtain ⟨m, ms, heq, hm⟩ := c.starts_spelling
    exact ⟨m, _, by rw [spelling, heq, List.cons_append],
      hm.mono fun x hx => by simp [mentions, hx]⟩
  | member object field range =>
    obtain ⟨m, ms, heq, hm⟩ := object.starts_spelling
    exact ⟨m, _, by rw [spelling, heq, List.cons_append],
      hm.mono fun x hx => by simp [mentions, hx]⟩
  | subscript object index range =>
    obtain ⟨m, ms, heq, hm⟩ := object.starts_spelling
    exact ⟨m, _, by rw [spelling, heq, List.cons_append],
      hm.mono fun x hx => by simp [mentions, hx]⟩
  | call callee args range =>
    obtain ⟨m, ms, heq, hm⟩ := callee.starts_spelling
    exact ⟨m, _, by rw [spelling, heq, List.cons_append],
      hm.mono fun x hx => by simp [mentions, hx]⟩

/-- An expression is spelled with at least one word. -/
theorem length_pos_of_fits {e : Expr} {ts : List Token} (h : Fits ts e.spelling) :
    0 < ts.length := by
  obtain ⟨m, ms, heq, -⟩ := e.starts_spelling
  rw [List.Forall₂.length_eq h, heq]
  exact Nat.succ_pos _

/-- A spelled expression starts with none of the marks that cannot start one. -/
theorem Parser.Reads.not_isPunctuation {p : Parser} {e : Expr} {ts rest : List Token}
    (h : p.Reads (ts ++ rest)) (hfits : Fits ts e.spelling) {text : String}
    (htext : text ∉ startMarks) :
    p.isPunctuation text = false := by
  obtain ⟨m, ms, heq, hm⟩ := e.starts_spelling
  obtain ⟨t, us, rfl, ht, -⟩ := fits_cons_iff.1 (heq ▸ hfits)
  rw [Parser.isPunctuation, Parser.Reads.current h, Option.any_some]
  exact ht.isPunctuation_eq_false (hm.ne_punct htext)

namespace Parse

/-- `climb` stops where nothing extends its expression. -/
theorem succeeds_climb_stop {k bound : Nat} {e : Expr} {q : Parser} {rest : List Token} (hk : 0 < k)
    (hq : q.Reads rest) (hstop : StopsBefore bound rest) :
    (climb standardOperators k e bound).Succeeds q fun e' q' => e' = e ∧ q'.Reads rest := by
  obtain ⟨k, rfl⟩ : ∃ m, k = m + 1 := ⟨k - 1, by omega⟩
  rw [climb]
  refine Succeeds.get ?_
  rw [ruleHere?_eq]
  cases rest with
  | nil =>
    simp only [hq.current_nil, Option.bind_none]
    exact Succeeds.pure ⟨rfl, hq⟩
  | cons t rest =>
    simp only [hq.current, Option.bind_some]
    cases hr : t.rule? with
    | none => exact Succeeds.pure ⟨rfl, hq⟩
    | some rule =>
      simp only [(hstop t rfl).2 rule hr, if_true]
      exact Succeeds.pure ⟨rfl, hq⟩

/-- `suffixes` stops where no suffix follows. -/
theorem succeeds_suffixes_stop {k : Nat} {e : Expr} {q : Parser} {rest : List Token} (hk : 0 < k)
    (hq : q.Reads rest) (hstop : ∀ t, rest.head? = some t → t.suffix? = none) :
    (suffixes standardOperators k e).Succeeds q fun e' q' => e' = e ∧ q'.Reads rest := by
  obtain ⟨k, rfl⟩ : ∃ m, k = m + 1 := ⟨k - 1, by omega⟩
  rw [suffixes]
  refine Succeeds.get ?_
  rw [suffixHere?_eq]
  cases rest with
  | nil =>
    simp only [hq.current_nil, Option.bind_none]
    exact Succeeds.pure ⟨rfl, hq⟩
  | cons t rest =>
    simp only [hq.current, Option.bind_some, hstop t rfl]
    exact Succeeds.pure ⟨rfl, hq⟩

end Parse

namespace Expr

open Parse

/-- A primary expression is read as an operand if no suffix follows it. -/
theorem ReadAsPrimary.operand {e : Expr} (h : e.ReadAsPrimary) : e.ReadAsOperand := by
  intro n p ts rest hfits hp hn hstop
  obtain ⟨n, rfl⟩ : ∃ m, n = m + 1 := ⟨n - 1, by omega⟩
  obtain ⟨hbefore, hread⟩ := @h n p ts rest (fun e' q => e'.bare = e.bare ∧ q.Reads rest) hfits hp
    (by omega) fun k e' q hk he' hq => by
      refine (succeeds_suffixes_stop (by omega) hq hstop).mono ?_
      rintro _ q' ⟨rfl, hq'⟩
      exact ⟨he', hq'⟩
  rw [Parse.operand]
  refine Succeeds.get ?_
  rw [hbefore]
  exact hread

/-- An operand is read as an expression of any bound. -/
theorem ReadAsOperand.binary {e : Expr} (h : e.ReadAsOperand) : e.ReadAsBinary := by
  intro n bound p ts rest post hfits hp hn _ hends hpost
  have hpos := length_pos_of_fits hfits
  simp only [List.length_append] at hn
  obtain ⟨n, rfl⟩ : ∃ m, n = m + 1 := ⟨n - 1, by omega⟩
  rw [Parse.binary]
  refine (h hfits hp (by simp only [List.length_append]; omega) fun t ht => (hends t ht).1).bind ?_
  rintro e' q ⟨he', hq⟩
  exact hpost n e' q (by omega) he' hq

/-- An expression that meets its bound is read alone if nothing after it meets the bound. -/
theorem ReadAsBinary.alone {e : Expr} (h : e.ReadAsBinary) {n bound : Nat} {p : Parser}
    {ts rest : List Token} (hfits : Fits ts e.spelling) (hp : p.Reads (ts ++ rest))
    (hn : 3 * (ts ++ rest).length + 3 ≤ n) (hbinds : e.BindsAt bound)
    (hstop : StopsBefore bound rest) :
    (Parse.binary standardOperators n bound).Succeeds p fun e' q =>
      e'.bare = e.bare ∧ q.Reads rest := by
  refine h hfits hp hn hbinds (fun t ht => ⟨(hstop t ht).1, fun rule next hrule hnext => ?_⟩) ?_
  · have h₁ := (hstop t ht).2 next hnext
    have h₂ := hbinds rule hrule
    have h₃ := rule.precedence_le_rightBound
    omega
  · intro k e' q hk he' hq
    refine (succeeds_climb_stop (by omega) hq hstop).mono ?_
    rintro _ q' ⟨rfl, hq'⟩
    exact ⟨he', hq'⟩

/-! ## Primary expressions -/

/-- An expression that `primary` reads alone. -/
theorem readAsPrimary_of_primary {e : Expr}
    (h : ∀ {n : Nat} {p : Parser} {ts rest : List Token}, Fits ts e.spelling →
      p.Reads (ts ++ rest) →
      3 * (ts ++ rest).length + 1 ≤ n → Parse.beforeHere? standardOperators p = none ∧
        (primary standardOperators n).Succeeds p fun e' q => e'.bare = e.bare ∧ q.Reads rest) :
    e.ReadAsPrimary := by
  intro n p ts rest post hfits hp hn hpost
  obtain ⟨hbefore, hread⟩ := h hfits hp hn
  have hpos := length_pos_of_fits hfits
  simp only [List.length_append] at hn
  exact ⟨hbefore, hread.bind fun e' q ⟨he', hq⟩ => hpost n e' q (by omega) he' hq⟩

/-- No literal is an operator before an operand. -/
theorem before?_of_literalOf? {t : Token} {value : Literal} (h : literalOf? t = .ok (some value)) :
    t.before? = none := by
  unfold Token.before?
  split
  · rename_i text htext
    simp [literalOf?, htext] at h
  · rfl

/-- A literal is a primary expression. -/
theorem readAsPrimary_literal (value : Literal) (range : Range) :
    (Expr.literal value range).ReadAsPrimary := by
  refine readAsPrimary_of_primary fun {n p ts rest} hfits hp hn => ?_
  obtain ⟨t, _, rfl, ht, hnil⟩ := fits_cons_iff.1 hfits
  obtain rfl := fits_nil_iff.1 hnil
  have hlit : literalOf? t = .ok (some value) := ht
  refine ⟨by rw [beforeHere?_eq, hp.current, Option.bind_some, before?_of_literalOf? hlit], ?_⟩
  obtain ⟨n, rfl⟩ : ∃ m, n = m + 1 := ⟨n - 1, by omega⟩
  rw [primary]
  refine Succeeds.get ?_
  simp only [hp.current, hlit]
  refine (succeeds_advance hp).bind ?_
  rintro _ q ⟨-, hq⟩
  exact Succeeds.pure ⟨rfl, hq⟩

theorem readAsPrimary_name (ident : Ident) : (Expr.name ident).ReadAsPrimary := by
  refine readAsPrimary_of_primary fun {n p ts rest} hfits hp hn => ?_
  obtain ⟨r, _, rfl, hnil⟩ := fits_word_iff.1 hfits
  obtain rfl := fits_nil_iff.1 hnil
  refine ⟨by rw [beforeHere?_eq, hp.current]; rfl, ?_⟩
  obtain ⟨n, rfl⟩ : ∃ m, n = m + 1 := ⟨n - 1, by omega⟩
  rw [primary]
  refine Succeeds.get ?_
  simp only [hp.current, literalOf?]
  refine (succeeds_identifier hp).bind ?_
  rintro _ q ⟨rfl, hq⟩
  exact Succeeds.pure ⟨rfl, hq⟩

/-- An expression in parentheses is a primary expression, however loosely its root binds. -/
theorem readAsPrimary_paren {inner : Expr} (h : inner.ReadAsBinary) (range : Range) :
    (Expr.paren inner range).ReadAsPrimary := by
  refine readAsPrimary_of_primary fun {n p ts rest} hfits hp hn => ?_
  obtain ⟨l, _, rfl, htail⟩ := fits_word_iff.1 hfits
  obtain ⟨us, _, rfl, hus, hright⟩ := fits_append_iff.1 htail
  obtain ⟨r, _, rfl, hnil⟩ := fits_word_iff.1 hright
  obtain rfl := fits_nil_iff.1 hnil
  refine ⟨by rw [beforeHere?_eq, hp.current]; rfl, ?_⟩
  simp only [List.cons_append, List.append_assoc, List.nil_append, List.length_cons,
    List.length_append]
    at hp hn
  obtain ⟨n, rfl⟩ : ∃ m, n = m + 1 := ⟨n - 1, by omega⟩
  rw [primary]
  refine Succeeds.get ?_
  simp only [hp.current, literalOf?]
  refine (succeeds_advance hp).bind ?_
  rintro _ q ⟨-, hq⟩
  refine (h.alone hus hq (by simp only [List.length_append, List.length_cons]; omega)
    (fun rule _ => Nat.zero_le _) (stopsBefore_punctuation 0 rfl rfl)).bind ?_
  rintro inner' q₁ ⟨hinner, hq₁⟩
  refine (succeeds_punctuation hq₁).bind ?_
  rintro _ q₂ ⟨rfl, hq₂⟩
  refine Succeeds.pure ⟨?_, hq₂⟩
  show Expr.paren inner'.bare .unknown = Expr.paren inner.bare .unknown
  rw [hinner]

/-! ## Suffixes -/

theorem suffix?_of_step {op : UnaryOp} (h : op.isPost) (r : Range) :
    Token.suffix? ⟨.punctuation op.text, r⟩ = some (.step op) := by
  refine Grammar.after?_eq_some.2 ⟨rfl, fun op' heq => ?_⟩
  obtain rfl : op = op' := by simpa using heq
  exact h

/-- A step after a primary expression makes a primary expression. -/
theorem readAsPrimary_step {op : UnaryOp} (hop : op.isPost) {operand : Expr}
    (h : operand.ReadAsPrimary) (range : Range) : (Expr.unary op operand range).ReadAsPrimary := by
  intro n p ts rest post hfits hp hn hpost
  rw [spelling, if_pos hop] at hfits
  obtain ⟨us, _, rfl, hus, hmark⟩ := fits_append_iff.1 hfits
  obtain ⟨r, _, rfl, hnil⟩ := fits_word_iff.1 hmark
  obtain rfl := fits_nil_iff.1 hnil
  rw [List.append_assoc] at hp hn
  refine h hus hp hn fun k operand' q hk hoperand hq => ?_
  simp only [List.cons_append, List.nil_append, List.length_cons] at hq hk
  obtain ⟨k, rfl⟩ : ∃ m, k = m + 1 := ⟨k - 1, by omega⟩
  rw [suffixes]
  refine Succeeds.get ?_
  rw [suffixHere?_eq, hq.current, Option.bind_some, suffix?_of_step hop]
  refine (succeeds_advance hq).bind ?_
  rintro _ q' ⟨-, hq'⟩
  refine hpost k _ q' (by omega) ?_ hq'
  show Expr.unary op operand'.bare .unknown = Expr.unary op operand.bare .unknown
  rw [hoperand]

/-- A member of a primary expression is one. -/
theorem readAsPrimary_member {object : Expr} (h : object.ReadAsPrimary) (field : Ident)
    (range : Range) :
    (Expr.member object field range).ReadAsPrimary := by
  intro n p ts rest post hfits hp hn hpost
  obtain ⟨us, _, rfl, hus, hmarks⟩ := fits_append_iff.1 hfits
  obtain ⟨r, _, rfl, hmark⟩ := fits_word_iff.1 hmarks
  obtain ⟨r', _, rfl, hnil⟩ := fits_word_iff.1 hmark
  obtain rfl := fits_nil_iff.1 hnil
  rw [List.append_assoc] at hp hn
  refine h hus hp hn fun k object' q hk hobject hq => ?_
  simp only [List.cons_append, List.nil_append, List.length_cons] at hq hk
  obtain ⟨k, rfl⟩ : ∃ m, k = m + 1 := ⟨k - 1, by omega⟩
  rw [suffixes]
  refine Succeeds.get ?_
  rw [suffixHere?_eq, hq.current, Option.bind_some, show Token.suffix? _ = some .member from rfl]
  refine (succeeds_advance hq).bind ?_
  rintro _ q₁ ⟨-, hq₁⟩
  refine (succeeds_identifier hq₁).bind ?_
  rintro _ q₂ ⟨rfl, hq₂⟩
  refine hpost k _ q₂ (by omega) ?_ hq₂
  show Expr.member object'.bare ⟨field.name, .unknown⟩ .unknown =
    Expr.member object.bare ⟨field.name, .unknown⟩ .unknown
  rw [hobject]

/-- An element of a primary expression is one. -/
theorem readAsPrimary_subscript {object index : Expr} (h : object.ReadAsPrimary)
    (hi : index.ReadAsBinary) (range : Range) :
    (Expr.subscript object index range).ReadAsPrimary := by
  intro n p ts rest post hfits hp hn hpost
  obtain ⟨us, _, rfl, hus, hmarks⟩ := fits_append_iff.1 hfits
  obtain ⟨l, _, rfl, htail⟩ := fits_word_iff.1 hmarks
  obtain ⟨vs, _, rfl, hvs, hmark⟩ := fits_append_iff.1 htail
  obtain ⟨r, _, rfl, hnil⟩ := fits_word_iff.1 hmark
  obtain rfl := fits_nil_iff.1 hnil
  rw [List.append_assoc] at hp hn
  refine h hus hp hn fun k object' q hk hobject hq => ?_
  simp only [List.cons_append, List.append_assoc, List.nil_append, List.length_cons,
    List.length_append]
    at hq hk
  obtain ⟨k, rfl⟩ : ∃ m, k = m + 1 := ⟨k - 1, by omega⟩
  rw [suffixes]
  refine Succeeds.get ?_
  rw [suffixHere?_eq, hq.current, Option.bind_some, show Token.suffix? _ = some .subscript from rfl]
  refine (succeeds_advance hq).bind ?_
  rintro _ q₁ ⟨-, hq₁⟩
  refine (hi.alone hvs hq₁ (by simp only [List.length_append, List.length_cons]; omega)
    (fun rule _ => Nat.zero_le _) (stopsBefore_punctuation 0 rfl rfl)).bind ?_
  rintro index' q₂ ⟨hindex, hq₂⟩
  refine (succeeds_punctuation hq₂).bind ?_
  rintro _ q₃ ⟨rfl, hq₃⟩
  refine hpost k _ q₃ (by omega) ?_ hq₃
  show Expr.subscript object'.bare index'.bare .unknown =
    Expr.subscript object.bare index.bare .unknown
  rw [hobject, hindex]

/-- The argument is read from the tokens. -/
def WrittenArg (e : Expr) (ts : List Token) : Prop :=
  e.ReadAsBinary ∧ Fits ts e.spelling

/-- Tokens that spell arguments are cut into arguments with commas in between. -/
theorem separated_of_fits : ∀ {es : List Expr} {ts : List Token}, (∀ e ∈ es, e.ReadAsBinary) →
    Fits ts (Expr.argSpelling es) → Separated WrittenArg es ts
  | [], ts, _, h => by
    obtain rfl := fits_nil_iff.1 h
    exact .nil
  | [e], ts, hall, h => .one ⟨hall e (by simp), h⟩
  | e :: next :: es, ts, hall, h => by
    obtain ⟨us, _, rfl, hus, hmarks⟩ := fits_append_iff.1 h
    obtain ⟨r, vs, rfl, hvs⟩ := fits_word_iff.1 hmarks
    exact .cons ⟨hall e (by simp), hus⟩
      (separated_of_fits (fun e' h' => hall e' (List.mem_cons_of_mem _ h')) hvs)

/-- An argument is read from its tokens up to the next comma or parenthesis. -/
theorem readsItem_arg (size : Nat) {n : Nat} (hn : 3 * size + 3 ≤ n) :
    ReadsItem (Parse.binary standardOperators n 0) Expr.bare WrittenArg size := by
  rintro e us ⟨he, hus⟩ p c r more hc hsize hp
  refine ⟨hp.not_isPunctuation hus (by decide), ?_⟩
  refine he.alone hus hp (by simp only [List.length_append, List.length_cons]; omega)
    (fun rule _ => Nat.zero_le _) ?_
  rcases hc with rfl | rfl <;> exact stopsBefore_punctuation 0 rfl rfl

/-- A call of a primary expression is one. -/
theorem readAsPrimary_call {callee : Expr} {args : List Expr} (h : callee.ReadAsPrimary)
    (hargs : ∀ e ∈ args, e.ReadAsBinary) (range : Range) :
    (Expr.call callee args range).ReadAsPrimary := by
  intro n p ts rest post hfits hp hn hpost
  obtain ⟨us, _, rfl, hus, hmarks⟩ := fits_append_iff.1 hfits
  obtain ⟨l, _, rfl, htail⟩ := fits_word_iff.1 hmarks
  obtain ⟨vs, _, rfl, hvs, hmark⟩ := fits_append_iff.1 htail
  obtain ⟨r, _, rfl, hnil⟩ := fits_word_iff.1 hmark
  obtain rfl := fits_nil_iff.1 hnil
  rw [List.append_assoc] at hp hn
  refine h hus hp hn fun k callee' q hk hcallee hq => ?_
  simp only [List.cons_append, List.append_assoc, List.nil_append, List.length_cons,
    List.length_append]
    at hq hk
  obtain ⟨k, rfl⟩ : ∃ m, k = m + 1 := ⟨k - 1, by omega⟩
  rw [suffixes]
  refine Succeeds.get ?_
  rw [suffixHere?_eq, hq.current, Option.bind_some, show Token.suffix? _ = some .call from rfl]
  refine (succeeds_advance hq).bind ?_
  rintro _ q₁ ⟨-, hq₁⟩
  refine (succeeds_separated (readsItem_arg (vs.length + rest.length + 1) (by omega))
    (separated_of_fits hargs hvs) (by omega) (by omega) hq₁).bind ?_
  rintro args' q₂ ⟨hargs', hq₂⟩
  refine (succeeds_punctuation hq₂).bind ?_
  rintro _ q₃ ⟨rfl, hq₃⟩
  refine hpost k _ q₃ (by omega) ?_ hq₃
  simp only [Expr.bare] at hcallee hargs' ⊢
  simp only [Expr.mapRange, hcallee, Expr.mapRangeAll_eq_map]
  exact congrArg (fun es => Expr.call _ es .unknown) hargs'

/-! ## Operators -/

/-- An operator before an operand makes an operand. -/
theorem readAsOperand_before {op : UnaryOp} (hop : op.isPost = false) {operand : Expr}
    (h : operand.ReadAsOperand) (range : Range) : (Expr.unary op operand range).ReadAsOperand := by
  intro n p ts rest hfits hp hn hstop
  rw [spelling, if_neg (by simp [hop])] at hfits
  obtain ⟨l, us, rfl, hus⟩ := fits_word_iff.1 hfits
  simp only [List.cons_append, List.length_cons, List.length_append] at hp hn
  obtain ⟨n, rfl⟩ : ∃ m, n = m + 1 := ⟨n - 1, by omega⟩
  have hbefore : Token.before? ⟨.punctuation op.text, l⟩ = some op :=
    Grammar.before?_eq_some.2 ⟨rfl, hop⟩
  rw [Parse.operand]
  refine Succeeds.get ?_
  rw [beforeHere?_eq, hp.current, Option.bind_some, hbefore]
  refine (succeeds_advance hp).bind ?_
  rintro _ q ⟨-, hq⟩
  refine (h hus hq (by simp only [List.length_append]; omega) hstop).bind ?_
  rintro operand' q₁ ⟨hoperand, hq₁⟩
  refine Succeeds.pure ⟨?_, hq₁⟩
  show Expr.unary op operand'.bare .unknown = Expr.unary op operand.bare .unknown
  rw [hoperand]

/-- An infix operator does not take the last operand of an expression that binds as tightly
as its left side must. -/
theorem endsBefore_of_bindsAt {e : Expr} (rule : BinaryRule) (h : e.BindsAt rule.leftBound)
    (r : Range) (rest : List Token) : e.EndsBefore (⟨.punctuation rule.text, r⟩ :: rest) := by
  intro t ht
  obtain rfl : ⟨.punctuation rule.text, r⟩ = t := by simpa using ht
  refine ⟨Token.suffix?_of_text rule r, fun rule' next hrule' hnext => ?_⟩
  obtain rfl : rule = next := by simpa [Token.rule?_of_text] using hnext
  exact BinaryRule.lt_rightBound (h rule' hrule')

theorem BindsAt.mono {e : Expr} {bound bound' : Nat} (h : e.BindsAt bound) (hle : bound' ≤ bound) :
    e.BindsAt bound' :=
  fun rule hrule => Nat.le_trans hle (h rule hrule)

/-- One turn of `climb` : its operator comes next and meets the bound. -/
theorem succeeds_climb (rule : BinaryRule) {k bound : Nat} {lhs : Expr} {q : Parser} {r : Range}
    {rest : List Token} {post : Expr → Parser → Prop}
    (hq : q.Reads (⟨.punctuation rule.text, r⟩ :: rest)) (hbound : bound ≤ rule.precedence)
    (h : ∀ q', q'.Reads rest → (match rule with
      | .ternary => do
        let whenTrue ← Parse.binary standardOperators k 0
        let _ ← punctuation ":"
        let whenFalse ← Parse.binary standardOperators k ternaryPrecedence
        climb standardOperators k (.ofTernary lhs whenTrue whenFalse) bound
      | .binary op => do
        let rhs ← Parse.binary standardOperators k (Parse.rightBound op)
        climb standardOperators k (.ofBinary op lhs rhs) bound).Succeeds q' post) :
    (climb standardOperators (k + 1) lhs bound).Succeeds q post := by
  rw [climb]
  refine Succeeds.get ?_
  rw [ruleHere?_eq, hq.current, Option.bind_some, Token.rule?_of_text]
  simp only [Nat.not_lt.2 hbound, if_false]
  refine (succeeds_advance hq).bind ?_
  rintro _ q' ⟨-, hq'⟩
  have hstep := h q' hq'
  cases rule <;> exact hstep

/-- Two operands that bind as tightly as their sides ask for make a binary expression. -/
theorem readAsBinary_binary {op : BinaryOp} {lhs rhs : Expr} (hl : lhs.ReadAsBinary)
    (hr : rhs.ReadAsBinary) (hlb : lhs.BindsAt (BinaryRule.leftBound (.binary op)))
    (hrb : rhs.BindsAt (BinaryRule.rightBound (.binary op))) (range : Range) :
    (Expr.binary op lhs rhs range).ReadAsBinary := by
  intro n bound p ts rest post hfits hp hn hbinds hends hpost
  obtain ⟨us, _, rfl, hus, hmarks⟩ := fits_append_iff.1 hfits
  obtain ⟨r, vs, rfl, hvs⟩ := fits_word_iff.1 hmarks
  have hbound : bound ≤ (BinaryRule.binary op).precedence := hbinds _ rfl
  have hstop : StopsBefore (Parse.rightBound op) rest := fun t ht =>
    ⟨(hends t ht).1, fun next hnext => (hends t ht).2 _ next rfl hnext⟩
  rw [List.append_assoc] at hp hn
  refine hl hus hp hn (hlb.mono (Nat.le_trans hbound (BinaryRule.precedence_le_leftBound _)))
    (endsBefore_of_bindsAt (.binary op) hlb r _) fun k lhs' q hk hlhs hq => ?_
  simp only [List.cons_append, List.length_cons, List.length_append] at hq hk
  obtain ⟨k, rfl⟩ : ∃ m, k = m + 1 := ⟨k - 1, by omega⟩
  refine succeeds_climb (.binary op) hq hbound fun q₁ hq₁ => ?_
  refine (hr.alone hvs hq₁ (by simp only [List.length_append]; omega) hrb hstop).bind ?_
  rintro rhs' q₂ ⟨hrhs, hq₂⟩
  refine hpost k _ q₂ (by omega) ?_ hq₂
  show Expr.binary op lhs'.bare rhs'.bare .unknown = Expr.binary op lhs.bare rhs.bare .unknown
  rw [hlhs, hrhs]

/-- A condition that binds more tightly than the ternary operator makes an expression with any
branches. -/
theorem readAsBinary_ternary {c a b : Expr} (hc : c.ReadAsBinary) (ha : a.ReadAsBinary)
    (hb : b.ReadAsBinary) (hcb : c.BindsAt (BinaryRule.leftBound .ternary)) (range : Range) :
    (Expr.ternary c a b range).ReadAsBinary := by
  intro n bound p ts rest post hfits hp hn hbinds hends hpost
  obtain ⟨us, _, rfl, hus, hmarks⟩ := fits_append_iff.1 hfits
  obtain ⟨r, _, rfl, htail⟩ := fits_word_iff.1 hmarks
  obtain ⟨vs, _, rfl, hvs, hmark⟩ := fits_append_iff.1 htail
  obtain ⟨r', ws, rfl, hws⟩ := fits_word_iff.1 hmark
  have hbound : bound ≤ BinaryRule.ternary.precedence := hbinds _ rfl
  have hstop : StopsBefore ternaryPrecedence rest := fun t ht =>
    ⟨(hends t ht).1, fun next hnext => (hends t ht).2 _ next rfl hnext⟩
  rw [List.append_assoc] at hp hn
  refine hc hus hp hn (hcb.mono (Nat.le_trans hbound (BinaryRule.precedence_le_leftBound _)))
    (endsBefore_of_bindsAt .ternary hcb r _) fun k c' q hk hc' hq => ?_
  simp only [List.cons_append, List.append_assoc, List.length_cons, List.length_append] at hq hk
  obtain ⟨k, rfl⟩ : ∃ m, k = m + 1 := ⟨k - 1, by omega⟩
  refine succeeds_climb .ternary hq hbound fun q₁ hq₁ => ?_
  refine (ha.alone hvs hq₁ (by simp only [List.length_append, List.length_cons]; omega)
    (fun rule _ => Nat.zero_le _) (stopsBefore_punctuation 0 rfl rfl)).bind ?_
  rintro a' q₂ ⟨ha', hq₂⟩
  refine (succeeds_punctuation hq₂).bind ?_
  rintro _ q₃ ⟨rfl, hq₃⟩
  refine (hb.alone hws hq₃ (by simp only [List.length_append]; omega)
    (fun rule _ => rule.ternaryPrecedence_le) hstop).bind ?_
  rintro b' q₄ ⟨hb', hq₄⟩
  refine hpost k _ q₄ (by omega) ?_ hq₄
  show Expr.ternary c'.bare a'.bare b'.bare .unknown = Expr.ternary c.bare a.bare b.bare .unknown
  rw [hc', ha', hb']

end Expr

/-! ## All expressions -/

/-- How a well-shaped expression is read : as tightly as its root allows. -/
structure Expr.Readable (e : Expr) : Prop where
  binary : e.ReadAsBinary
  operand : e.rule? = none → e.ReadAsOperand
  primary : e.TakesSuffix → e.ReadAsPrimary

theorem Expr.ReadAsPrimary.readable {e : Expr} (h : e.ReadAsPrimary) : e.Readable :=
  ⟨h.operand.binary, fun _ => h.operand, fun _ => h⟩

mutual

/-- Every well-shaped expression is read as tightly as its root allows. The induction is on the
expression. -/
theorem Expr.readable : ∀ e : Expr, e.WellShaped → e.Readable
  | .literal value range, _ => (readAsPrimary_literal value range).readable
  | .name ident, _ => (readAsPrimary_name ident).readable
  | .paren inner range, h => (readAsPrimary_paren (inner.readable h).binary range).readable
  | .unary op operand range, h => by
    obtain ⟨hshape, hrule, hpost⟩ := h
    have ih := operand.readable hshape
    cases hop : op.isPost with
    | true => exact (readAsPrimary_step hop (ih.primary ⟨hrule, hpost hop⟩) range).readable
    | false =>
      have hread := readAsOperand_before hop (ih.operand hrule) range
      exact ⟨hread.binary, fun _ => hread, fun ⟨_, hp⟩ => by simp [isPrefixed, hop] at hp⟩
  | .binary op lhs rhs range, h => by
    obtain ⟨hl, hr, hlb, hrb⟩ := h
    exact ⟨readAsBinary_binary (lhs.readable hl).binary (rhs.readable hr).binary hlb hrb range,
      fun h => by simp [rule?] at h, fun ⟨h, _⟩ => by simp [rule?] at h⟩
  | .ternary c a b range, h => by
    obtain ⟨hc, ha, hb, hcb⟩ := h
    exact ⟨readAsBinary_ternary (c.readable hc).binary (a.readable ha).binary
      (b.readable hb).binary hcb
      range, fun h => by simp [rule?] at h, fun ⟨h, _⟩ => by simp [rule?] at h⟩
  | .member object field range, h =>
    (readAsPrimary_member ((object.readable h.1).primary h.2) field range).readable
  | .subscript object index range, h =>
    (readAsPrimary_subscript ((object.readable h.1).primary h.2.1) (index.readable h.2.2).binary
      range).readable
  | .call callee args range, h =>
    (readAsPrimary_call ((callee.readable h.1).primary h.2.1)
      (fun e he => (Expr.readable_of_mem args h.2.2 e he).binary) range).readable

theorem Expr.readable_of_mem : ∀ es : List Expr, Expr.AllWellShaped es → ∀ e ∈ es, e.Readable
  | [], _, _, he => absurd he List.not_mem_nil
  | e :: rest, h, e', he => by
    rcases List.mem_cons.1 he with heq | he
    · rw [heq]
      exact e.readable h.1
    · exact Expr.readable_of_mem rest h.2 e' he

end

/-- From tokens that spell a well-shaped expression, with nothing after them that extends it, the
expression is read up to ranges. -/
theorem Parse.succeeds_expression {e : Expr} (he : e.WellShaped) {n : Nat} {p : Parser}
    {ts rest : List Token} (hfits : Fits ts e.spelling) (hp : p.Reads (ts ++ rest))
    (hn : 3 * (ts ++ rest).length + 3 ≤ n) (hstop : StopsBefore 0 rest) :
    (expression standardOperators n).Succeeds p fun e' q => e'.bare = e.bare ∧ q.Reads rest :=
  (e.readable he).binary.alone hfits hp hn (fun _ _ => Nat.zero_le _) hstop

end Rill
