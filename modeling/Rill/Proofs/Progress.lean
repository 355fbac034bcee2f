import Rill.Proofs.Moves
import Rill.Proofs.ProgramAgreement
import Rill.Proofs.StatementSound

/-!
# Reading makes progress

A statement, an expression, a declaration or a parameter that is read has taken at least one token,
and whatever comes of reading it, the tokens that are left are the last ones of those before
(`Parse.Consumes`). So reading nests and repeats no more often than the number of items ahead
allows : with a bound of three times that number and four, it never comes to the bound
(`Parse.Ends`). The bound with which texts are read is larger, so every text is read as a tree or
refused with an error that is found in it (`Buffer.parsing_ends`).
-/

namespace Rill

/-! ## Trees take tokens -/

section

variable {ts : List Token}

/-- An expression is read from at least one token. -/
theorem Expr.ReadFrom.ne_nil {e : Expr} (h : e.ReadFrom ts) : ts ≠ [] := by
  rintro rfl
  cases e with
  | unary op operand range =>
    rw [Expr.ReadFrom] at h
    split at h <;> simp at h
  | _ => simp [Expr.ReadFrom] at h

theorem Decl.ReadFrom.ne_nil {d : Decl} (h : d.ReadFrom ts) : ts ≠ [] := by
  rintro rfl
  cases d with
  | var v => simp [Decl.ReadFrom, Variable.ReadFrom] at h
  | func f =>
    obtain ⟨id, ident, type, params, body, scope, own, range⟩ := f
    simp [Decl.ReadFrom, Func.ReadFrom] at h
  | group g =>
    obtain ⟨kind, id, ident, members, membersRange, scope, own, range⟩ := g
    simp [Decl.ReadFrom, Group.ReadFrom] at h

/-- A statement is read from at least one token. -/
theorem Stmt.ReadFrom.ne_nil {s : Stmt} (h : s.ReadFrom ts) : ts ≠ [] := by
  rintro rfl
  cases s with
  | decl d range => exact Decl.ReadFrom.ne_nil h.1 rfl
  | block b =>
    obtain ⟨stmts, scope, range⟩ := b
    simp [Stmt.ReadFrom, Block.ReadFrom] at h
  | _ => simp [Stmt.ReadFrom] at h

theorem Variable.ParamReadFrom.ne_nil {v : Variable} (h : v.ParamReadFrom ts) : ts ≠ [] := by
  obtain ⟨us, rfl, -⟩ := h
  simp

end

/-! ## Tokens that are left -/

namespace Parser

variable {p : Parser}

/-- The tokens that are left are those among the items ahead. -/
theorem Ended.tokens_eq (h : p.Ended) : p.tokens = p.ahead.filterMap Except.toOption := by
  cases hc : p.current with
  | none => simp [tokens, ahead, hc, h hc]
  | some t => simp [tokens, ahead, hc, Except.toOption]

/-- A parser at its start has a current token unless the text has none. -/
theorem ended_of_start {b : Buffer} (h : Parser.start b = .ok p) : p.Ended := by
  intro hnone
  rw [start_eq] at h
  cases hr : (Filter.ofItems Filter.trivia b.items).remaining with
  | nil =>
    obtain rfl : ofBuffer b = p := by simpa [hr] using h
    simp [ofBuffer, hr]
  | cons i rest =>
    cases i with
    | error e => simp [hr] at h
    | ok t =>
      obtain rfl : ofBuffer b = p := by simpa [hr] using h
      simp [ofBuffer, hr] at hnone

/-- At the start of a text, at most a fault is ahead besides the tokens. -/
theorem left_le_of_start {b : Buffer} (h : Parser.start b = .ok p) :
    p.left ≤ p.tokens.length + 1 := by
  obtain ⟨ts, c', error, -, -, hitems⟩ := b.exists_walk_items
  have htokens : ∀ us : List Token,
      (us.map (Except.ok (ε := LexError))).filterMap Except.toOption = us := by
    intro us
    simp [List.filterMap_map, Function.comp_def, Except.toOption]
  rw [(ended_of_start h).tokens_eq, left, ahead_of_start h, Filter.remaining_ofItems, hitems,
    walkItems, List.filter_append, List.filter_map, List.filterMap_append, htokens,
    List.length_append, List.length_append, List.length_map]
  cases error with
  | none => simp
  | some e => simp [Filter.leavesOut]

end Parser

namespace Parse

variable {α : Type} {act : Parse α} {p p' : Parser}

/-- A success of the step takes at least one token, and whatever comes of it, the tokens that are
left are the last ones of those before. -/
structure Consumes (act : Parse α) (p : Parser) : Prop where
  takes : ∀ a q, act p = .ok a q → ∃ ts, ts ≠ [] ∧ p.tokens = ts ++ q.tokens
  keeps : (act.after p).tokens <:+ p.tokens

/-- The step does not fail because of its bound. -/
def Ends (act : Parse α) (p : Parser) : Prop :=
  ∀ e q, act p = .error e q → e.fault ≠ .stalled

/-- A step made of moves consumes something if its success takes a token. -/
theorem MadeIn.consumes (h : MadeIn p.scope act) (htakes : act.Takes p fun _ ts _ => ts ≠ []) :
    act.Consumes p := by
  refine ⟨fun a q hrun => ?_, (h.later rfl).tokens⟩
  obtain ⟨ts, hahead, hts⟩ := htakes a q hrun
  -- there is a current token, so the parser that is left has none only at the end
  have hended : p.Ended := by
    intro hnone
    simp [Parser.ahead, hnone, hts] at hahead
  have hlater := h.later (p := p) rfl
  rw [after_ok hrun] at hlater
  refine ⟨ts, hts, ?_⟩
  rw [hended.tokens_eq, (hlater.ended hended).tokens_eq, hahead]
  simp [List.filterMap_map, Function.comp_def, Except.toOption]

/-- A statement consumes at least one token. -/
theorem consumes_statement (n : Nat) (p : Parser) : (statement .standard n).Consumes p :=
  (closed_made.statement n p.scope).consumes ((takes_statement n p).mono fun _ _ _ h => h.1.ne_nil)

theorem consumes_expression (n : Nat) (p : Parser) :
    (expression Grammar.standardOperators n).Consumes p :=
  ((closed_made.tokenClosed _).expression _ n).consumes
    ((takes_expression n p).mono fun _ _ _ h => h.1.ne_nil)

theorem consumes_declaration (n : Nat) (p : Parser) :
    (declaration (statement .standard n)).Consumes p :=
  ((closed_made.tokenClosed _).declaration (closed_made.statement n p.scope)).consumes
    ((takes_declaration (takes_statement n) p).mono fun _ _ _ h => h.1.ne_nil)

theorem consumes_param (p : Parser) : param.Consumes p :=
  closed_made.param.consumes ((takes_param p).mono fun _ _ _ h => h.ne_nil)

/-! ## Bounds on nesting -/

/-- A step that agrees with another does not fail because of its bound. -/
theorem Agree.ends {act' : Parse α} {post : α → α → Parser → Parser → Prop}
    (h : Agree act act' p p' post) :
    act.Ends p := by
  intro e q hrun
  unfold Agree at h
  rw [hrun] at h
  split at h
  · rename_i heq _
    cases heq
  · rename_i heq _
    cases heq
    exact h.2
  · exact h.elim

end Parse

theorem Parser.Alike.refl (p : Parser) : p.Alike p := ⟨rfl, rfl, rfl, rfl, rfl, rfl⟩

namespace Parse

variable {p : Parser} {n : Nat}

/-- Three steps for each token, and four more, are enough for a statement. -/
theorem ends_statement (h : 3 * p.left + 4 ≤ n) : (statement .standard n).Ends p :=
  (agree_statement (.refl p) h h).ends

theorem ends_expression (h : 3 * p.left + 4 ≤ n) :
    (expression Grammar.standardOperators n).Ends p :=
  ((exprAgree _ n).binary n (.refl p) (by omega) (by omega)).ends

/-- Statements are read to the end of the text. -/
theorem ends_statements (h : 3 * p.left + 4 ≤ n) :
    (itemsUntil Parser.isEmpty (statement .standard n) n).Ends p := by
  have hitem :
      ItemsAgree (statement .standard n) (statement .standard n) (Stmt.relabel .bare) p.left :=
    fun q q' hq hm => agree_statement hq (by omega) (by omega)
  exact (agree_itemsUntil _ Parser.Alike.isEmpty hitem n (.refl p) (Nat.le_refl _) (by omega)
    (by omega)).ends

/-- Lists in parentheses are read to their end, if every item takes something. -/
theorem ends_separated {α β : Type} {item : Parse α} {key : α → β}
    (hitem : ItemsAgree item item key p.left) (h : p.left < n) (text : String) :
    (separated item (·.isPunctuation text) (accept ",") n).Ends p :=
  (agree_separated key (fun hq => hq.isPunctuation text) hitem n (.refl p) (Nat.le_refl _) h h).ends

/-- Arguments end with the same number of steps. -/
theorem ends_arguments (h : 3 * p.left + 4 ≤ n) :
    (separated (expression Grammar.standardOperators n) (·.isPunctuation ")") (accept ",") n).Ends
      p := by
  have hitem :
      ItemsAgree (expression Grammar.standardOperators n) (expression Grammar.standardOperators n)
      Expr.bare p.left :=
    fun q q' hq hm => (exprAgree _ n).binary n hq (by omega) (by omega)
  exact ends_separated hitem (by omega) ")"

/-- Parameters end with the same number of steps. -/
theorem ends_params (h : 3 * p.left + 4 ≤ n) :
    (separated param (·.isPunctuation ")") (accept ",") n).Ends p := by
  have hitem : ItemsAgree param param (Variable.relabel .bare) p.left :=
    fun q q' hq _ => agree_param hq
  exact ends_separated hitem (by omega) ")"

end Parse

namespace Buffer

variable {α : Type} {b : Buffer}

/-- A text is refused for its first lexical fault or by the step that reads it. -/
theorem not_stalled_of_eval {act : Parse α} (hact : ∀ p, act.Ends p) {e : ParseError}
    (h : (Parser.start b >>= Parse.eval act) = .error e) : e.fault ≠ .stalled := by
  cases hstart : Parser.start b with
  | ok p =>
    simp only [hstart, Bind.bind, Except.bind, Parse.eval] at h
    split at h
    · cases h
    · rename_i e' q hrun
      obtain rfl := Except.error.inj h
      exact hact p e' q hrun
  | error e' =>
    rw [hstart] at h
    obtain rfl := Except.error.inj h
    rw [Parser.start_eq] at hstart
    split at hstart
    · obtain rfl := Except.error.inj hstart
      simp [LexError.toParseError]
    · cases hstart

/-- Reading ends on every text, with a tree or with an error that is found in the text. A statement,
an expression, a declaration or a parameter that is read takes at least one token, and what is left
of the tokens never grows. The items ahead are the tokens and at most one fault, and reading nests
and repeats at most three times as often as their number, and four times more. -/
theorem parsing_ends (b : Buffer) :
    (∀ e, b.program = .error e → e.fault ≠ .stalled) ∧
    (∀ e, b.script = .error e → e.fault ≠ .stalled) ∧
    (∀ p, Parser.start b = .ok p → p.left ≤ p.tokens.length + 1) ∧
    ∀ (p : Parser) (n : Nat),
      ((Parse.statement .standard n).Consumes p ∧
        (Parse.expression Grammar.standardOperators n).Consumes p ∧
        (Parse.declaration (Parse.statement .standard n)).Consumes p ∧
        Parse.param.Consumes p) ∧
      (3 * p.left + 4 ≤ n →
        (Parse.statement .standard n).Ends p ∧
        (Parse.expression Grammar.standardOperators n).Ends p ∧
        (Parse.itemsUntil Parser.isEmpty (Parse.statement .standard n) n).Ends p ∧
        (Parse.separated (Parse.expression Grammar.standardOperators n) (·.isPunctuation ")")
          (Parse.accept ",") n).Ends p ∧
        (Parse.separated Parse.param (·.isPunctuation ")") (Parse.accept ",") n).Ends p) := by
  refine ⟨fun e => not_stalled_of_eval fun p => (Parse.agree_program (.refl p)).ends,
    fun e => not_stalled_of_eval fun p => (Parse.agree_script (.refl p)).ends,
    fun p => Parser.left_le_of_start, fun p n => ⟨?_, fun h => ?_⟩⟩
  · exact ⟨Parse.consumes_statement n p, Parse.consumes_expression n p,
      Parse.consumes_declaration n p, Parse.consumes_param p⟩
  · exact ⟨Parse.ends_statement h, Parse.ends_expression h, Parse.ends_statements h,
      Parse.ends_arguments h, Parse.ends_params h⟩

/-- A text that breaks off inside a call in a block : nine tokens and a fault. The bound that
suffices for them is not felt, a smaller one is. -/
theorem parsing_ends_unclosed :
    let p := Parser.ofBuffer (anonymous "if (a) \x7b f(b, \"c")
    Parser.start (anonymous "if (a) \x7b f(b, \"c") = .ok p ∧ p.left = 10 ∧ p.tokens.length = 9 ∧
      (Parse.statement .standard 34).Ends p ∧
      (((Parse.statement .standard 34).eval p).map fun _ => ()).mapError ParseError.fault =
        .error (.lexical .unterminatedString) ∧
      (((Parse.statement .standard 4).eval p).map fun _ => ()).mapError ParseError.fault =
        .error .stalled := by
  intro p
  have hleft : p.left = 10 := by decide +kernel
  have hends := (parsing_ends (anonymous "if (a) \x7b f(b, \"c")).2.2.2 p 34
  exact ⟨rfl, hleft, by decide +kernel,
    (hends.2 (by omega)).1, by decide +kernel, by decide +kernel⟩

end Buffer

end Rill
