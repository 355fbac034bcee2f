import Rill.Grammar.Program
import Rill.Proofs.Lines
import Rill.Proofs.StatementComplete

/-!
# Scripts and their texts

A text that is read as a script is the script written out : its tokens that carry meaning match the
words of the statements, which are well-formed (`Buffer.allReadFrom_of_script`). Conversely every
list of well-formed statements with proper names and with literals that can be written is the
content of some text (`exists_tokens_of_writable`), and any text that matches its words is read as
that list, up to ranges and the numbers of declarations and scopes (`Buffer.script_of_fits`).
-/

namespace Rill

/-! ## From a text to its script -/

/-- What is read of a text is read by a parser at its start. -/
theorem Buffer.ok_of_eval {α : Type} {b : Buffer} {act : Parse α} {a : α}
    (h : (Parser.start b >>= Parse.eval act) = .ok a) :
    ∃ q, Parser.start b = .ok (.ofBuffer b) ∧ act (.ofBuffer b) = .ok a q := by
  have hok : Parser.start b = .ok (.ofBuffer b) := by
    have hstart := Parser.start_eq b
    cases hnext : (Filter.ofItems Filter.trivia b.items).remaining.head? with
    | none => rw [hstart, hnext]
    | some i =>
      cases i with
      | ok t => rw [hstart, hnext]
      | error e => simp [hstart, hnext, Bind.bind, Except.bind] at h
  simp only [hok, Bind.bind, Except.bind, Parse.eval] at h
  split at h
  · rename_i a' q hrun
    obtain rfl : a' = a := by simpa using h
    exact ⟨q, hok, hrun⟩
  · cases h

/-- A step that reads a buffer to its end has taken all its tokens. -/
theorem Buffer.tokens_of_eval {α : Type} {b : Buffer} {act : Parse α} {a : α}
    {post : α → List Token → Prop} (hact : ∀ p, act.Takes p fun a ts q => post a ts ∧ q.isEmpty)
    (h : (Parser.start b >>= Parse.eval act) = .ok a) : ∃ ts, b.tokens = .ok ts ∧ post a ts := by
  obtain ⟨q, hstart, hrun⟩ := ok_of_eval h
  obtain ⟨ts, hahead, hpost, hend⟩ := hact _ a q hrun
  have hnone : q.current = none := by simpa [Parser.isEmpty] using hend
  have hq : q.ahead = [] := by simp [Parser.ahead, hnone]
  refine ⟨ts, ?_, hpost⟩
  rw [Buffer.tokens_eq_ok, ← Parser.ahead_of_start hstart, hahead, hq, List.append_nil]

namespace Parse

/-- A script is read from all tokens, statement by statement. -/
theorem takes_script (p : Parser) : (script .standard).Takes p fun s ts q =>
    (Stmt.AllReadFrom s.stmts ts ∧ Stmt.AllWellFormed s.stmts ∧
      s.range = .hull (s.stmts.map Stmt.range)) ∧ q.isEmpty := by
  refine Takes.get ?_
  refine (takes_itemsUntil (R := fun s us => s.ReadFrom us ∧ s.WellFormed) (fun q =>
    (takes_statement p.fuel q).mono fun s us _ h => ⟨h.1, h.2.1⟩) p.fuel p).bind ?_
  rintro stmts ts q ⟨hlisted, hend⟩
  obtain ⟨hread, hwell⟩ := Stmt.allReadFrom_of_listed hlisted
  exact Takes.get (Takes.pure ⟨⟨by simpa using hread, hwell, rfl⟩, hend⟩)

/-- A program is read from all tokens, declaration by declaration. -/
theorem takes_program (p : Parser) : (program .standard).Takes p fun u ts q =>
    (Decl.AllReadFrom u.decls ts ∧ u.range = .hull (u.decls.map Decl.range)) ∧ q.isEmpty := by
  refine Takes.get ?_
  refine (takes_itemsUntil (takes_declaration (takes_statement p.fuel)) p.fuel p).bind ?_
  rintro decls ts q ⟨hlisted, hend⟩
  refine Takes.get (Takes.pure ⟨⟨?_, rfl⟩, hend⟩)
  simpa using (Decl.allReadFrom_of_listed hlisted).1

end Parse

/-- The statements of a script were read from all tokens of the text, one after the other. -/
theorem Buffer.allReadFrom_of_script {b : Buffer} {s : Script} (h : b.script = .ok s) :
    ∃ ts, b.tokens = .ok ts ∧ Stmt.AllReadFrom s.stmts ts ∧ Stmt.AllWellFormed s.stmts := by
  obtain ⟨ts, hts, hread, hwell, -⟩ := tokens_of_eval Parse.takes_script h
  exact ⟨ts, hts, hread, hwell⟩

/-! ## From a script to a text -/

/-- A text whose tokens match the words of the statements is read as these statements. -/
theorem Buffer.script_of_fits {b : Buffer} {ts : List Token} {ss : List Stmt}
    (hb : b.tokens = .ok ts) (hfits : Fits ts (Stmt.allSpelling ss)) (hwell : Stmt.AllWellFormed ss)
    (hnames : NamesFree (Stmt.mentionsAll ss)) :
    ∃ s, b.script = .ok s ∧ Stmt.relabelAll .plain s.stmts = Stmt.relabelAll .plain ss := by
  obtain ⟨p, hstart, hp⟩ := Parser.start_of_tokens hb
  have hspells : p.Spells (Stmt.allSpelling ss ++ []) := ⟨ts, by simpa using hfits, hp⟩
  have hfuel := p.length_ahead_le
  rw [hp.length, List.Forall₂.length_eq hfits] at hfuel
  have hgo : ∀ q m ns, Parser.Spells q (m :: ns) → m.Opens → q.isEmpty = false := by
    intro q m ns hq _
    obtain ⟨t, hc, -⟩ := hq.exists_current
    simp [Parser.isEmpty, hc]
  have hstop : ∀ q, Parser.Spells q [] → q.isEmpty := fun q hq => by
    simp [Parser.isEmpty, hq.current_nil]
  have hscript : (Parse.script .standard).Succeeds p fun s _ =>
      Stmt.relabelAll .plain s.stmts = Stmt.relabelAll .plain ss := by
    refine Parse.Succeeds.get ?_
    refine (Parse.succeeds_stmts (Stmt.readable_of_mem ss hwell hnames) hgo hstop
      (by simp [NoElse]) hspells
      (by simpa using hfuel) (by omega)).bind ?_
    rintro ss' q ⟨hss, _⟩
    exact Parse.Succeeds.get (Parse.Succeeds.pure hss)
  obtain ⟨s, q, hrun, hs⟩ := hscript
  exact ⟨s, by simp [Buffer.script, hstart, Parse.eval, hrun, Bind.bind, Except.bind], hs⟩

/-- The word is written by the text. -/
def TokenPattern.WrittenBy (m : TokenPattern) (w : WrittenLexeme) : Prop :=
  ∀ range, m.Fits ⟨w.lexeme, range⟩

/-- Tokens of texts that write some words fit the words. -/
theorem fits_of_writtenBy {ws : List WrittenLexeme} {ms : List TokenPattern}
    (h : List.Forall₂ (fun w m => TokenPattern.WrittenBy m w) ws ms) :
    ∀ {ts : List Token}, ts.map Token.lexeme = ws.map WrittenLexeme.lexeme → Fits ts ms := by
  induction h with
  | nil =>
    intro ts hts
    obtain rfl : ts = [] := by simpa using hts
    exact .nil
  | cons hw _ ih =>
    intro ts hts
    obtain ⟨⟨_, range⟩, us, rfl, rfl, hus⟩ := List.map_eq_cons_iff.1 hts
    exact .cons (hw range) (ih hus)

/-- Words that can be written alone can be written one after the other. -/
theorem exists_tokens_of_writable {ms : List TokenPattern} (h : ∀ m ∈ ms, ∃ w, m.WrittenBy w) :
    ∃ b ts, Buffer.tokens b = .ok ts ∧ Fits ts ms := by
  have hwords : ∃ ws, List.Forall₂ (fun w m => TokenPattern.WrittenBy m w) ws ms := by
    induction ms with
    | nil => exact ⟨[], .nil⟩
    | cons m ms ih =>
      obtain ⟨ws, hws⟩ := ih fun m' hm' => h m' (List.mem_cons_of_mem _ hm')
      obtain ⟨w, hw⟩ := h m (by simp)
      exact ⟨w :: ws, .cons hw hws⟩
  obtain ⟨ws, hws⟩ := hwords
  let b := Buffer.anonymous (String.ofList (WrittenLexeme.lines ws))
  have hchars : b.chars = WrittenLexeme.lines ws := by simp [b, Buffer.anonymous, Buffer.chars]
  obtain ⟨ts, hts, hlex⟩ :=
    Tokenizer.items_lines ws (t := Tokenizer.start b) rfl hchars (Nat.le_refl _)
  refine ⟨b, ts, ?_, fits_of_writtenBy hws hlex⟩
  rw [Buffer.tokens_eq_ok, Filter.remaining_ofItems]
  exact hts

/-! ## The words of a tree -/

/-- The word is a literal, punctuation, a type, a word of the grammar or one of the names
mentioned. -/
def TokenPattern.Known (mentions : List Mention) : TokenPattern → Prop
  | .literal _ => True
  | .word (.punctuation text) => text ∈ Scan.operators
  | .word (.identifier name) =>
    name ∈ "else" :: statementWords ∨ ∃ m ∈ mentions, m.name? = some name
  | .word (.keyword (.type _)) => True
  | .word _ => False

/-- All words are known. -/
def AllKnown (mentions : List Mention) (ms : List TokenPattern) : Prop :=
  ∀ m ∈ ms, m.Known mentions

section

variable {mentions : List Mention} {ms ns : List TokenPattern}

@[simp]
theorem allKnown_nil : AllKnown mentions [] := by
  simp [AllKnown]

@[simp]
theorem allKnown_cons {m : TokenPattern} :
    AllKnown mentions (m :: ms) ↔ m.Known mentions ∧ AllKnown mentions ms := by
  simp [AllKnown]

/-- Words in sequence are known if all of them are. -/
@[simp]
theorem allKnown_append :
    AllKnown mentions (ms ++ ns) ↔ AllKnown mentions ms ∧ AllKnown mentions ns := by
  simp only [AllKnown, List.mem_append]
  exact ⟨fun h => ⟨fun m hm => h m (.inl hm), fun m hm => h m (.inr hm)⟩,
    fun ⟨h, h'⟩ m hm => hm.elim (h m) (h' m)⟩

@[simp]
theorem known_literal {value : Literal} : (TokenPattern.literal value).Known mentions := trivial

/-- A mark that the scanner knows is known. -/
@[simp]
theorem known_mark {text : String} (h : text ∈ Scan.operators) :
    (TokenPattern.punct text).Known mentions :=
  h

@[simp]
theorem known_word {name : String} (h : name ∈ "else" :: statementWords) :
    (TokenPattern.ident name).Known mentions :=
  .inl h

theorem known_name {name : String} {m : Mention} (hm : m ∈ mentions) (hname : m.name? = some name) :
    (TokenPattern.ident name).Known mentions :=
  .inr ⟨m, hm, hname⟩

end

/-- Every infix operator is a mark that the scanner knows. -/
theorem BinaryOp.text_mem_operators (op : BinaryOp) : op.text ∈ Scan.operators := by
  rcases op with _ | o | o | o | o
  · decide
  all_goals cases o <;> decide

/-- Every prefix or postfix operator is a mark that the scanner knows. -/
theorem UnaryOp.text_mem_operators (op : UnaryOp) : op.text ∈ Scan.operators := by
  rcases op with _ | _ | _ | o | o
  · decide
  · decide
  · decide
  all_goals cases o <;> decide

mutual

/-- An expression is spelled with known words : marks, literals and the names that it mentions. -/
theorem Expr.allKnown : ∀ (e : Expr) {l : List Mention}, e.mentions ⊆ l → AllKnown l e.spelling
  | .literal _ _, _, _ => by simp [spelling]
  | .name i, _, h => by
    simpa [spelling] using known_name (h (by simp [mentions] : Mention.ident i ∈ _)) rfl
  | .paren inner _, _, h => by
    have hinner := inner.allKnown h
    simp (disch := decide) [spelling, hinner]
  | .unary op operand _, _, h => by
    have hoperand := operand.allKnown h
    by_cases hop : op.isPost <;>
      simp [spelling, hop, hoperand, UnaryOp.text_mem_operators]
  | .binary op lhs rhs _, _, h => by
    simp only [mentions, List.append_subset] at h
    simp [spelling, lhs.allKnown h.1, rhs.allKnown h.2, BinaryOp.text_mem_operators]
  | .ternary c a b _, _, h => by
    simp only [mentions, List.append_subset] at h
    simp (disch := decide) [spelling, c.allKnown h.1.1, a.allKnown h.1.2, b.allKnown h.2]
  | .member object field _, _, h => by
    simp only [mentions, List.append_subset] at h
    have hfield := known_name (h.2 (by simp : Mention.ident field ∈ _)) rfl
    simp (disch := decide) [spelling, object.allKnown h.1, hfield]
  | .subscript object index _, _, h => by
    simp only [mentions, List.append_subset] at h
    simp (disch := decide) [spelling, object.allKnown h.1, index.allKnown h.2]
  | .call callee args _, _, h => by
    simp only [mentions, List.append_subset] at h
    simp (disch := decide) [spelling, callee.allKnown h.1, Expr.allKnown_args args h.2]

theorem Expr.allKnown_args : ∀ (es : List Expr) {l : List Mention}, Expr.mentionsAll es ⊆ l →
    AllKnown l (Expr.argSpelling es)
  | [], _, _ => by simp [argSpelling]
  | [e], _, h => by
    simp only [mentionsAll, List.append_subset] at h
    simpa [argSpelling] using e.allKnown h.1
  | e :: next :: rest, _, h => by
    rw [mentionsAll, List.append_subset] at h
    simp (disch := decide) [argSpelling, e.allKnown h.1, Expr.allKnown_args (next :: rest) h.2]

end

section

variable {l : List Mention}

theorem Expr.allKnown_opt {e : Option Expr} (h : Expr.mentions? e ⊆ l) :
    AllKnown l (Expr.spelling? e) := by
  cases e with
  | none => simp [spelling?]
  | some e => exact e.allKnown h

theorem Expr.allKnown_init {e : Option Expr} (h : Expr.mentions? e ⊆ l) :
    AllKnown l (Expr.initSpelling e) := by
  cases e with
  | none => simp [initSpelling]
  | some e =>
    simp (disch := decide) [initSpelling, e.allKnown h]

/-- A type is spelled with its word or with a name that is mentioned. -/
theorem TypeRef.allKnown {type : Option TypeRef} (h : TypeRef.mentions? type ⊆ l) :
    AllKnown l (TypeRef.spelling type) := by
  match type with
  | none => simp [spelling]
  | some (.builtin t) => simp [spelling, TokenPattern.Known]
  | some (.named i) =>
    have hmem : Mention.type (.named i) ∈ l := h (by simp [TypeRef.mentions?])
    simpa [spelling] using known_name hmem rfl

theorem Variable.allKnown {v : Variable} (h : v.mentions ⊆ l) : AllKnown l v.spelling := by
  simp only [mentions, List.cons_append, List.cons_subset, List.append_subset] at h
  have hword : (TokenPattern.ident (word v.constant)).Known l :=
    known_word (by cases v.constant <;> decide)
  simp (disch := decide) [spelling, hword, TypeRef.allKnown h.2.1, known_name h.1 rfl,
    Expr.allKnown_init h.2.2]

theorem Variable.allKnown_param {v : Variable} (h : v.mentions ⊆ l) :
    AllKnown l v.paramSpelling := by
  simp only [mentions, List.cons_append, List.cons_subset, List.append_subset] at h
  simp [paramSpelling, TypeRef.allKnown h.2.1, known_name h.1 rfl]

/-- Parameters are spelled with known words. -/
theorem Variable.allKnown_params : ∀ vs : List Variable, vs.flatMap Variable.mentions ⊆ l →
    AllKnown l (Variable.paramsSpelling vs)
  | [], _ => by simp [paramsSpelling]
  | [v], h => by
    simp only [List.flatMap_cons, List.append_subset] at h
    exact allKnown_param h.1
  | v :: next :: rest, h => by
    rw [List.flatMap_cons, List.append_subset] at h
    simp (disch := decide) [paramsSpelling, allKnown_param h.1, allKnown_params (next :: rest) h.2]

end

mutual

/-- A statement is spelled with known words. -/
theorem Stmt.allKnown : ∀ (s : Stmt) {l : List Mention}, s.mentions ⊆ l → AllKnown l s.spelling
  | .expr e _, _, h => by
    simp (disch := decide) [Stmt.spelling, e.allKnown h]
  | .decl d _, _, h => d.allKnown h
  | .block b, _, h => b.allKnown h
  | .ifElse c a b _, l, h => by
    simp only [Stmt.mentions, List.append_subset] at h
    simp (disch := decide) [Stmt.spelling, c.allKnown h.1.1, a.allKnown h.1.2,
      Stmt.allKnown_else b h.2]
  | .whileDo c body _, l, h => by
    simp only [Stmt.mentions, List.append_subset] at h
    simp (disch := decide) [Stmt.spelling, c.allKnown h.1, body.allKnown h.2]
  | .doWhile body c _, l, h => by
    simp only [Stmt.mentions, List.append_subset] at h
    simp (disch := decide) [Stmt.spelling, body.allKnown h.1, c.allKnown h.2]
  | .forLoop init c step body _ _, l, h => by
    simp only [Stmt.mentions, List.append_subset] at h
    simp (disch := decide)
      [Stmt.spelling, Stmt.allKnown_init init h.1.1.1, Expr.allKnown_opt h.1.1.2,
      Expr.allKnown_opt h.1.2, body.allKnown h.2]
  | .switch subject body _, l, h => by
    simp only [Stmt.mentions, List.append_subset] at h
    simp (disch := decide) [Stmt.spelling, subject.allKnown h.1, body.allKnown h.2]
  | .caseLabel value _, l, h => by
    simp (disch := decide) [Stmt.spelling, value.allKnown h]
  | .defaultLabel _, l, _ => by
    simp (disch := decide) [Stmt.spelling]
  | .continue _, l, _ => by
    simp (disch := decide) [Stmt.spelling]
  | .break _, l, _ => by
    simp (disch := decide) [Stmt.spelling]
  | .return value _, l, h => by
    simp (disch := decide) [Stmt.spelling, Expr.allKnown_opt h]

theorem Stmt.allKnown_else : ∀ (s : Option Stmt) {l : List Mention}, Stmt.mentions? s ⊆ l →
    AllKnown l (Stmt.elseSpelling s)
  | none, _, _ => by simp [Stmt.elseSpelling]
  | some s, _, h => by
    simp only [Stmt.elseSpelling, allKnown_cons, s.allKnown h]
    exact ⟨known_word (by decide), trivial⟩

/-- The first part of a `for` loop is spelled with known words. -/
theorem Stmt.allKnown_init : ∀ (s : Option Stmt) {l : List Mention}, Stmt.mentions? s ⊆ l →
    AllKnown l (Stmt.initSpelling s)
  | none, _, _ => by
    simp (disch := decide) [Stmt.initSpelling]
  | some s, _, h => s.allKnown h

theorem Stmt.allKnown_all : ∀ (ss : List Stmt) {l : List Mention}, Stmt.mentionsAll ss ⊆ l →
    AllKnown l (Stmt.allSpelling ss)
  | [], _, _ => by simp [Stmt.allSpelling]
  | s :: rest, _, h => by
    rw [Stmt.mentionsAll, List.append_subset] at h
    rw [Stmt.allSpelling, allKnown_append]
    exact ⟨s.allKnown h.1, Stmt.allKnown_all rest h.2⟩

theorem Block.allKnown : ∀ (b : Block) {l : List Mention}, b.mentions ⊆ l → AllKnown l b.spelling
  | ⟨stmts, _, _⟩, _, h => by
    simp (disch := decide) [Block.spelling, Stmt.allKnown_all stmts h]

/-- A declaration is spelled with known words. -/
theorem Decl.allKnown : ∀ (d : Decl) {l : List Mention}, d.mentions ⊆ l → AllKnown l d.spelling
  | .var _, _, h => Variable.allKnown h
  | .func f, _, h => f.allKnown h
  | .group g, _, h => g.allKnown h

theorem Decl.allKnown_all : ∀ (ds : List Decl) {l : List Mention}, Decl.mentionsAll ds ⊆ l →
    AllKnown l (Decl.allSpelling ds)
  | [], _, _ => by simp [Decl.allSpelling]
  | d :: rest, _, h => by
    rw [Decl.mentionsAll, List.append_subset] at h
    rw [Decl.allSpelling, allKnown_append]
    exact ⟨d.allKnown h.1, Decl.allKnown_all rest h.2⟩

/-- A function is spelled with known words. -/
theorem Func.allKnown : ∀ (f : Func) {l : List Mention}, f.mentions ⊆ l → AllKnown l f.spelling
  | ⟨_, ident, type, params, body, _, _, _⟩, l, h => by
    simp only [Func.mentions, List.cons_append, List.cons_subset, List.append_subset] at h
    simp (disch := decide) [Func.spelling, TypeRef.allKnown h.2.1.1, known_name h.1 rfl,
      Variable.allKnown_params params h.2.1.2, body.allKnown h.2.2]

theorem Group.allKnown : ∀ (g : Group) {l : List Mention}, g.mentions ⊆ l → AllKnown l g.spelling
  | ⟨kind, _, ident, members, _, _, _, _⟩, l, h => by
    simp only [Group.mentions, List.cons_subset] at h
    have hword : (TokenPattern.ident (Parse.groupWord kind)).Known l :=
      known_word (by cases kind <;> decide)
    simp (disch := decide)
      [Group.spelling, hword, known_name h.1 rfl, Decl.allKnown_all members h.2]

end

/-! ## The words of a tree as texts -/

/-- Some text is cut into one token that denotes the literal. -/
def Literal.Denoted (value : Literal) : Prop :=
  ∃ l w, scan w = some (.lexeme l w.length) ∧
    ∀ range, Parse.literalOf? ⟨l, range⟩ = .ok (some value)

/-- A literal that some text denotes is written by that text. -/
theorem writtenBy_literal {value : Literal} (h : value.Denoted) :
    ∃ w, (TokenPattern.literal value).WrittenBy w := by
  obtain ⟨l, w, hscan, hvalue⟩ := h
  have hl : l.kind.isTrivia = false := by
    have hlit := hvalue .unknown
    cases l with
    | comment | blank | lineBreak => simp [Parse.literalOf?] at hlit
    | _ => rfl
  exact ⟨⟨l, w, hscan, hl⟩, hvalue⟩

/-- A mark is written by itself. -/
theorem writtenBy_mark {text : String} (h : text ∈ Scan.operators) :
    ∃ w, (TokenPattern.punct text).WrittenBy w := by
  have hall : ∀ op ∈ Scan.operators, scan op.toList =
      some (.lexeme (.punctuation op) op.toList.length) := by
    decide +kernel
  exact ⟨⟨.punctuation text, text.toList, hall text h, rfl⟩, fun _ => rfl⟩

/-- A builtin type is written by its word. -/
theorem writtenBy_type (type : BuiltinType) :
    ∃ w, (TokenPattern.word (.keyword (.type type))).WrittenBy w := by
  have hscan : scan type.name.toList =
      some (.lexeme (.keyword (.type type)) type.name.toList.length) := by
    cases type <;> rfl
  exact ⟨⟨.keyword (.type type), type.name.toList, hscan, rfl⟩, fun _ => rfl⟩

/-- A word of the grammar is written by itself. -/
theorem writtenBy_word {name : String} (h : name ∈ "else" :: statementWords) :
    ∃ w, (TokenPattern.ident name).WrittenBy w := by
  have hall : ∀ word ∈ "else" :: statementWords,
      scan word.toList = some (.lexeme (.identifier word) word.toList.length) := by
    decide +kernel
  exact ⟨⟨.identifier name, name.toList, hall name h, rfl⟩, fun _ => rfl⟩

/-- Known words can be written if the names are proper and the literals are denoted. -/
theorem writtenBy_of_known {mentions : List Mention} {m : TokenPattern} (h : m.Known mentions)
    (hnames : NamesFree mentions) (hliteral : ∀ value, m = .literal value → value.Denoted) :
    ∃ w, m.WrittenBy w := by
  match m, h with
  | .literal value, _ => exact writtenBy_literal (hliteral value rfl)
  | .word (.punctuation text), h => exact writtenBy_mark h
  | .word (.identifier name), h =>
    rcases h with hword | ⟨x, hx, hname⟩
    · exact writtenBy_word hword
    · exact ⟨⟨.identifier name, name.toList, (hnames x hx name hname).lexical, rfl⟩, fun _ => rfl⟩
  | .word (.keyword (.type type)), _ => exact writtenBy_type type

/-- Reading a script loses and invents nothing : a text that is read is its statements
written out, and statements that can be written are read back from every text that writes
them, of which there is one. -/
theorem Buffer.script_iff_written :
    (∀ b s, Buffer.script b = .ok s →
      ∃ ts, b.tokens = .ok ts ∧ Fits ts (Stmt.allSpelling s.stmts) ∧ Stmt.AllWellFormed s.stmts) ∧
    ∀ ss, Stmt.AllWellFormed ss → NamesFree (Stmt.mentionsAll ss) →
      (∀ value, .literal value ∈ Stmt.allSpelling ss → value.Denoted) →
      (∃ b ts, Buffer.tokens b = .ok ts ∧ Fits ts (Stmt.allSpelling ss)) ∧
        ∀ b ts, Buffer.tokens b = .ok ts → Fits ts (Stmt.allSpelling ss) →
          ∃ s, b.script = .ok s ∧ Stmt.relabelAll .plain s.stmts = Stmt.relabelAll .plain ss := by
  refine ⟨fun b s h => ?_, fun ss hwell hnames hliterals => ⟨?_, fun b ts hb hfits => ?_⟩⟩
  · obtain ⟨ts, hts, hread, hwell⟩ := Buffer.allReadFrom_of_script h
    exact ⟨ts, hts, Stmt.fits_of_allReadFrom s.stmts hread, hwell⟩
  · have hknown := Stmt.allKnown_all ss (List.Subset.refl _)
    refine exists_tokens_of_writable fun m hm => writtenBy_of_known (hknown m hm) hnames ?_
    rintro value rfl
    exact hliterals value hm
  · exact Buffer.script_of_fits hb hfits hwell hnames

/-- The statements of `if (x) while (!x) f(1); else { const int y = 'c'; }`. -/
def branching : List Stmt :=
  [.ifElse (.name ⟨"x", .unknown⟩)
    (.whileDo (.unary .not (.name ⟨"x", .unknown⟩) .unknown)
      (.expr (.call (.name ⟨"f", .unknown⟩) [.literal (.int 1) .unknown] .unknown) .unknown)
      .unknown)
    (some (.block ⟨[.decl (.var
      { id := ⟨0⟩, ident := ⟨"y", .unknown⟩, type := some (.builtin .int)
        init := some (.literal (.char 'c') .unknown), constant := true, scope := .global
        range := .unknown }) .unknown], .global, .unknown⟩)) .unknown]

/-- Statements that branch, loop, call and declare are read from some text as they are. -/
theorem Buffer.script_branching : ∃ b s ts, Buffer.script b = .ok s ∧
    Stmt.relabelAll .plain s.stmts = Stmt.relabelAll .plain branching ∧ b.tokens = .ok ts ∧
      Fits ts (Stmt.allSpelling s.stmts) ∧ Stmt.AllWellFormed s.stmts := by
  have hwell : Stmt.AllWellFormed branching := by
    simp [branching, Stmt.AllWellFormed, Stmt.WellFormed, Stmt.OptWellFormed, Block.WellFormed,
      Decl.WellFormed, Variable.WellFormed, Expr.WellShaped, Expr.AllWellShaped,
      Expr.TakesSuffix, Expr.rule?, Expr.isPrefixed]
  have hnames : NamesFree (Stmt.mentionsAll branching) := by
    have hname : ∀ name ∈ ["x", "f", "y"], IsName name := by
      have hscan : ∀ name ∈ ["x", "f", "y"],
          scan name.toList = some (.lexeme (.identifier name) name.toList.length) := by decide
      have hfree : ∀ name ∈ ["x", "f", "y"], name ∉ "else" :: statementWords := by decide
      exact fun name h => ⟨hscan name h, hfree name h⟩
    intro m hm name hmention
    refine hname name ?_
    have hall : ∀ m ∈ Stmt.mentionsAll branching, ∀ name, m.name? = some name →
        name ∈ ["x", "f", "y"] := by
      simp [branching, Stmt.mentionsAll, Stmt.mentions, Stmt.mentions?, Block.mentions,
        Decl.mentions, Variable.mentions, TypeRef.mentions?, Expr.mentions, Expr.mentionsAll,
        Expr.mentions?, Mention.name?]
    exact hall m hm name hmention
  have hliterals : ∀ value, .literal value ∈ Stmt.allSpelling branching → value.Denoted := by
    have hone : (Literal.int 1).Denoted := ⟨.number "1", ['1'], rfl, fun _ => rfl⟩
    have hchar : (Literal.char 'c').Denoted := ⟨.char 'c', ['\'', 'c', '\''], rfl, fun _ => rfl⟩
    intro value hvalue
    have hcases : value = .int 1 ∨ value = .char 'c' := by
      simpa [branching, Stmt.allSpelling, Stmt.spelling, Stmt.elseSpelling, Block.spelling,
        Decl.spelling, Variable.spelling, Expr.initSpelling, TypeRef.spelling, Expr.spelling,
        Expr.argSpelling, UnaryOp.isPost] using hvalue
    rcases hcases with rfl | rfl
    · exact hone
    · exact hchar
  obtain ⟨⟨b, ts, hb, hfits⟩, hread⟩ := Buffer.script_iff_written.2 branching hwell hnames hliterals
  obtain ⟨s, hs, hsame⟩ := hread b ts hb hfits
  obtain ⟨us, hus, hfits', hwell'⟩ := Buffer.script_iff_written.1 b s hs
  exact ⟨b, s, us, hs, hsame, hus, hfits', hwell'⟩

end Rill
