import Rill.Proofs.StatementWords

/-!
# Reading what is written

A well-formed statement whose names are no words of the grammar is read back from its words, up to
ranges and the numbers of declarations and scopes (`Stmt.readable`).

The one word that matters after a statement is `else` : it must not follow a statement that
ends in an `if` without one.
-/

namespace Rill

/-! ## The forms of statements -/

/-- From its words, and words after them that do not continue it, the statement is read. -/
def Stmt.Readable (s : Stmt) : Prop :=
  ∀ ⦃n : Nat⦄ ⦃p : Parser⦄ ⦃ms : List TokenPattern⦄, p.Spells (s.spelling ++ ms) →
    3 * (s.spelling ++ ms).length + 4 ≤ n → (s.endsOpen → NoElse ms) →
    (Parse.statement .standard n).Succeeds p fun s' q =>
      s'.relabel .plain = s.relabel .plain ∧ q.Spells ms

/-- From its words the block is read. -/
def Block.Readable (b : Block) : Prop :=
  ∀ ⦃n : Nat⦄ ⦃p : Parser⦄ ⦃ms : List TokenPattern⦄ (scope : ScopeId), p.Spells (b.spelling ++ ms) →
    3 * (b.spelling ++ ms).length + 1 ≤ n →
    (Parse.blockIn (Parse.nested .standard n) scope).Succeeds p fun b' q =>
      b'.relabel .plain = b.relabel .plain ∧ q.Spells ms

theorem Stmt.allSpelling_eq_flatMap :
    ∀ ss : List Stmt, Stmt.allSpelling ss = ss.flatMap Stmt.spelling
  | [] => rfl
  | s :: rest => by simp [Stmt.allSpelling, Stmt.allSpelling_eq_flatMap rest]

theorem Decl.allSpelling_eq_flatMap :
    ∀ ds : List Decl, Decl.allSpelling ds = ds.flatMap Decl.spelling
  | [] => rfl
  | d :: rest => by simp [Decl.allSpelling, Decl.allSpelling_eq_flatMap rest]

/-- Items that are written with at least one word each are no more than the words. -/
theorem length_le_flatMap {α : Type} {spell : α → List TokenPattern} :
    ∀ {xs : List α}, (∀ x ∈ xs, spell x ≠ []) → xs.length ≤ (xs.flatMap spell).length
  | [], _ => Nat.le_refl _
  | x :: xs, h => by
    have hx := List.length_pos_iff.2 (h x (by simp))
    have ih := length_le_flatMap fun y hy => h y (List.mem_cons_of_mem _ hy)
    simp only [List.flatMap_cons, List.length_append, List.length_cons]
    omega

namespace Parse

variable {p : Parser} {ms : List TokenPattern} {n : Nat}

/-- The form of a word. -/
theorem succeeds_statement_of_word {text : String} {form : Form} {post : Stmt → Parser → Prop}
    (h : p.Spells (.ident text :: ms)) (hform : Grammar.standard.form? text = some form)
    (hread : (form (nested .standard n)).Succeeds p post) :
    (statement .standard (n + 1)).Succeeds p post := by
  obtain ⟨⟨_, r⟩, hc, ht⟩ := h.exists_current
  obtain rfl : _ = Lexeme.identifier text := ht
  rw [statement]
  refine Succeeds.get ?_
  have hhere : formHere .standard p = form := by simp [formHere, Parser.formWord?, hc, hform]
  rw [hhere]
  exact hread

end Parse

/-- A block that can be read is read in a scope of its own. -/
theorem Block.Readable.succeeds_block {b : Block} (hb : b.Readable) {n : Nat} {p : Parser}
    {ms : List TokenPattern} (h : p.Spells (b.spelling ++ ms))
    (hn : 3 * (b.spelling ++ ms).length + 1 ≤ n) :
    (Parse.block (Parse.nested .standard n)).Succeeds p fun b' q =>
      b'.relabel .plain = b.relabel .plain ∧ q.Spells ms :=
  Parse.Succeeds.opening fun id scopes => hb (p := { p with scopes := scopes, scope := id }) id h hn

namespace Stmt

open Parse

/-- An `if` without a second branch is read if no `else` follows. -/
theorem readable_ifElse_none {c : Expr} {a : Stmt} (hc : c.WellShaped) (ha : a.Readable)
    (range : Range) :
    (Stmt.ifElse c a none range).Readable := by
  intro n p ms h hn hends
  obtain ⟨n, rfl⟩ : ∃ k, n = k + 1 := ⟨n - 1, by omega⟩
  simp only [spelling, elseSpelling, List.append_nil, List.cons_append, List.append_assoc,
    List.length_cons, List.length_append] at h hn
  refine succeeds_statement_of_word h rfl ?_
  unfold ifForm
  refine (succeeds_spelled_word h).bind fun start q₁ hq₁ => ?_
  refine (succeeds_spelled_condition hc hq₁ (by
    simp only [List.length_cons, List.length_append]; omega)).bind ?_
  rintro c' q₂ ⟨hc', hq₂⟩
  refine (ha hq₂ (by simp only [List.length_append]; omega) fun _ => hends rfl).bind ?_
  rintro a' q₃ ⟨ha', hq₃⟩
  refine Succeeds.get ?_
  have helse : q₃.isIdentifier "else" = false := hq₃.isIdentifier_eq_false (hends rfl)
  rw [if_neg (by simp [helse])]
  refine Succeeds.pure ⟨?_, hq₃⟩
  show Stmt.ifElse c'.bare (a'.relabel .plain) none .unknown =
    .ifElse c.bare (a.relabel .plain) none .unknown
  rw [hc', ha']

/-- An `if` with a second branch is read if the first one does not end in an open `if`, which
would take the `else`. -/
theorem readable_ifElse_some {c : Expr} {a b : Stmt} (hc : c.WellShaped) (ha : a.Readable)
    (hb : b.Readable) (hopen : a.endsOpen = false) (range : Range) :
    (Stmt.ifElse c a (some b) range).Readable := by
  intro n p ms h hn hends
  obtain ⟨n, rfl⟩ : ∃ k, n = k + 1 := ⟨n - 1, by omega⟩
  simp only [spelling, elseSpelling, List.cons_append, List.append_assoc, List.length_cons,
    List.length_append] at h hn
  refine succeeds_statement_of_word h rfl ?_
  unfold ifForm
  refine (succeeds_spelled_word h).bind fun start q₁ hq₁ => ?_
  refine (succeeds_spelled_condition hc hq₁ (by
    simp only [List.length_cons, List.length_append]; omega)).bind ?_
  rintro c' q₂ ⟨hc', hq₂⟩
  refine (ha hq₂ (by simp only [List.length_append, List.length_cons]; omega)
    (by simp [hopen])).bind
    ?_
  rintro a' q₃ ⟨ha', hq₃⟩
  refine Succeeds.get ?_
  rw [if_pos hq₃.isIdentifier]
  refine (succeeds_spelled_advance hq₃).bind fun _ q₄ hq₄ => ?_
  refine (hb hq₄ (by simp only [List.length_append]; omega) hends).bind ?_
  rintro b' q₅ ⟨hb', hq₅⟩
  refine Succeeds.pure ⟨?_, hq₅⟩
  show Stmt.ifElse c'.bare (a'.relabel .plain) (some (b'.relabel .plain)) .unknown =
    .ifElse c.bare (a.relabel .plain) (some (b.relabel .plain)) .unknown
  rw [hc', ha', hb']

theorem readable_whileDo {c : Expr} {body : Stmt} (hc : c.WellShaped) (hbody : body.Readable)
    (range : Range) : (Stmt.whileDo c body range).Readable := by
  intro n p ms h hn hends
  obtain ⟨n, rfl⟩ : ∃ k, n = k + 1 := ⟨n - 1, by omega⟩
  simp only [spelling, List.cons_append, List.append_assoc, List.length_cons,
    List.length_append] at h hn
  refine succeeds_statement_of_word h rfl ?_
  unfold whileForm
  refine (succeeds_spelled_word h).bind fun start q₁ hq₁ => ?_
  refine (succeeds_spelled_condition hc hq₁ (by
    simp only [List.length_cons, List.length_append]; omega)).bind ?_
  rintro c' q₂ ⟨hc', hq₂⟩
  refine (hbody hq₂ (by simp only [List.length_append]; omega) hends).bind ?_
  rintro body' q₃ ⟨hbody', hq₃⟩
  refine Succeeds.pure ⟨?_, hq₃⟩
  show Stmt.whileDo c'.bare (body'.relabel .plain) .unknown =
    .whileDo c.bare (body.relabel .plain) .unknown
  rw [hc', hbody']

/-- A `do` loop is read up to its semicolon. -/
theorem readable_doWhile {c : Expr} {body : Stmt} (hbody : body.Readable) (hc : c.WellShaped)
    (range : Range) : (Stmt.doWhile body c range).Readable := by
  intro n p ms h hn _
  obtain ⟨n, rfl⟩ : ∃ k, n = k + 1 := ⟨n - 1, by omega⟩
  simp only [spelling, List.cons_append, List.append_assoc, List.nil_append, List.length_cons,
    List.length_append] at h hn
  refine succeeds_statement_of_word h rfl ?_
  unfold doForm
  refine (succeeds_spelled_word h).bind fun start q₁ hq₁ => ?_
  refine (hbody hq₁ (by simp only [List.length_append, List.length_cons]; omega)
    fun _ => by simp [NoElse]).bind ?_
  rintro body' q₂ ⟨hbody', hq₂⟩
  refine (succeeds_spelled_word hq₂).bind fun again q₃ hq₃ => ?_
  refine (succeeds_spelled_condition hc hq₃ (by
    simp only [List.length_cons, List.length_append]; omega)).bind ?_
  rintro c' q₄ ⟨hc', hq₄⟩
  refine (succeeds_spelled_punctuation hq₄).bind fun stop q₅ hq₅ => ?_
  refine Succeeds.pure ⟨?_, hq₅⟩
  show Stmt.doWhile (body'.relabel .plain) c'.bare .unknown =
    .doWhile (body.relabel .plain) c.bare .unknown
  rw [hc', hbody']

/-- The first part of a `for` loop is read as a statement, or as a semicolon if it is missing. -/
theorem succeeds_forInit {init : Option Stmt} {n : Nat} {p : Parser} {ms : List TokenPattern}
    (hinit : ∀ s, init = some s → s.Readable ∧ ∃ m ns, s.spelling = m :: ns ∧ m.Opens)
    (h : p.Spells (initSpelling init ++ ms)) (hn : 3 * (initSpelling init ++ ms).length + 4 ≤ n)
    (hms : NoElse ms) :
    (forInit (nested .standard n)).Succeeds p fun init' q =>
      relabel? .plain init' = relabel? .plain init ∧ q.Spells ms := by
  unfold forInit
  cases init with
  | none =>
    refine (succeeds_spelled_accept h).bind ?_
    rintro _ q ⟨rfl, hq⟩
    exact Succeeds.pure ⟨rfl, hq⟩
  | some s =>
    obtain ⟨hs, m, ns, heq, hm⟩ := hinit s rfl
    have hmark : p.isPunctuation ";" = false :=
      h.isPunctuation_eq_false (by simpa [initSpelling, heq] using hm.ne_semicolon)
    refine (succeeds_accept_false hmark).bind ?_
    rintro _ _ ⟨rfl, rfl⟩
    refine Succeeds.map ((hs h hn fun _ => hms).mono ?_)
    rintro s' q ⟨hs', hq⟩
    exact ⟨congrArg some hs', hq⟩

/-- A `for` loop is read from its words. A missing condition or step is told by the mark that
follows. -/
theorem readable_forLoop {init : Option Stmt} {c step : Option Expr} {body : Stmt}
    (hinit : ∀ s, init = some s → s.Readable ∧ ∃ m ns, s.spelling = m :: ns ∧ m.Opens)
    (hc : ∀ e, c = some e → e.WellShaped) (hcnames : NamesFree (Expr.mentions? c))
    (hstep : ∀ e, step = some e → e.WellShaped) (hbody : body.Readable) (scope : ScopeId)
    (range : Range) :
    (Stmt.forLoop init c step body scope range).Readable := by
  intro n p ms h hn hends
  obtain ⟨n, rfl⟩ : ∃ k, n = k + 1 := ⟨n - 1, by omega⟩
  simp only [spelling, List.cons_append, List.append_assoc, List.length_cons,
    List.length_append] at h hn
  have hnext : ∀ ns, NoElse (Expr.spelling? c ++ .punct ";" :: ns) := by
    intro ns
    cases c with
    | none => exact noElse_punct _ _
    | some e =>
      obtain ⟨m, ns', heq, hm, -⟩ := e.opens_spelling hcnames
      rw [Expr.spelling?, heq]
      exact noElse_of_opens hm
  refine succeeds_statement_of_word h rfl ?_
  unfold forForm
  refine (succeeds_spelled_word h).bind fun start q₁ hq₁ => ?_
  refine Succeeds.opening fun id scopes => ?_
  refine (succeeds_spelled_punctuation (p := { q₁ with scopes := scopes, scope := id }) hq₁).bind
    fun _ q₂ hq₂ => ?_
  refine (succeeds_forInit hinit hq₂ (by simp only [List.length_cons, List.length_append]; omega)
    (hnext _)).bind ?_
  rintro init' q₃ ⟨hinit', hq₃⟩
  refine (succeeds_spelled_unlessAt hc hq₃
    (by simp only [List.length_cons, List.length_append]; omega)
    (by decide) rfl rfl).bind ?_
  rintro c' q₄ ⟨hc', hq₄⟩
  refine (succeeds_spelled_punctuation hq₄).bind fun _ q₅ hq₅ => ?_
  refine (succeeds_spelled_unlessAt hstep hq₅
    (by simp only [List.length_cons, List.length_append]; omega)
    (by decide) rfl rfl).bind ?_
  rintro step' q₆ ⟨hstep', hq₆⟩
  refine (succeeds_spelled_punctuation hq₆).bind fun _ q₇ hq₇ => ?_
  refine (hbody hq₇ (by simp only [List.length_append]; omega) hends).bind ?_
  rintro body' q₈ ⟨hbody', hq₈⟩
  refine Succeeds.pure ⟨?_, hq₈⟩
  show Stmt.forLoop (relabel? .plain init') (c'.map Expr.bare) (step'.map Expr.bare)
      (body'.relabel .plain)
      .global .unknown =
    .forLoop (relabel? .plain init) (c.map Expr.bare) (step.map Expr.bare) (body.relabel .plain)
      .global .unknown
  rw [hinit', hc', hstep', hbody']

/-- A switch is read from its words. -/
theorem readable_switch {subject : Expr} {body : Block} (hs : subject.WellShaped)
    (hbody : body.Readable) (range : Range) : (Stmt.switch subject body range).Readable := by
  intro n p ms h hn _
  obtain ⟨n, rfl⟩ : ∃ k, n = k + 1 := ⟨n - 1, by omega⟩
  simp only [spelling, List.cons_append, List.append_assoc, List.length_cons,
    List.length_append] at h hn
  refine succeeds_statement_of_word h rfl ?_
  unfold switchForm
  refine (succeeds_spelled_word h).bind fun start q₁ hq₁ => ?_
  refine (succeeds_spelled_condition hs hq₁ (by
    simp only [List.length_cons, List.length_append]; omega)).bind ?_
  rintro subject' q₂ ⟨hs', hq₂⟩
  refine (hbody.succeeds_block hq₂ (by simp only [List.length_append]; omega)).bind ?_
  rintro body' q₃ ⟨hbody', hq₃⟩
  refine Succeeds.pure ⟨?_, hq₃⟩
  show Stmt.switch subject'.bare (body'.relabel .plain) .unknown =
    .switch subject.bare (body.relabel .plain) .unknown
  rw [hs', hbody']

theorem readable_caseLabel {value : Expr} (hv : value.WellShaped) (range : Range) :
    (Stmt.caseLabel value range).Readable := by
  intro n p ms h hn _
  obtain ⟨n, rfl⟩ : ∃ k, n = k + 1 := ⟨n - 1, by omega⟩
  simp only [spelling, List.cons_append, List.append_assoc, List.nil_append, List.length_cons,
    List.length_append] at h hn
  refine succeeds_statement_of_word h rfl ?_
  unfold caseForm
  refine (succeeds_spelled_word h).bind fun start q₁ hq₁ => ?_
  refine (succeeds_spelled_expression hv hq₁
    (by simp only [List.length_append, List.length_cons]; omega)
    rfl rfl).bind ?_
  rintro value' q₂ ⟨hv', hq₂⟩
  refine (succeeds_spelled_punctuation hq₂).bind fun stop q₃ hq₃ => Succeeds.pure ⟨?_, hq₃⟩
  exact congrArg (fun e => Stmt.caseLabel e .unknown) hv'

/-- A `return` is read with or without a value. -/
theorem readable_return {value : Option Expr} (hv : ∀ e, value = some e → e.WellShaped)
    (range : Range) :
    (Stmt.return value range).Readable := by
  intro n p ms h hn _
  obtain ⟨n, rfl⟩ : ∃ k, n = k + 1 := ⟨n - 1, by omega⟩
  simp only [spelling, List.cons_append, List.append_assoc, List.nil_append, List.length_cons,
    List.length_append] at h hn
  refine succeeds_statement_of_word h rfl ?_
  unfold returnForm
  refine (succeeds_spelled_word h).bind fun start q₁ hq₁ => ?_
  refine (succeeds_spelled_unlessAt hv hq₁
    (by simp only [List.length_append, List.length_cons]; omega)
    (by decide) rfl rfl).bind ?_
  rintro value' q₂ ⟨hv', hq₂⟩
  refine (succeeds_spelled_punctuation hq₂).bind fun stop q₃ hq₃ => Succeeds.pure ⟨?_, hq₃⟩
  exact congrArg (fun e => Stmt.return e .unknown) hv'

theorem succeeds_wordThen {text mark : String} {p : Parser} {ms : List TokenPattern}
    (h : p.Spells (.ident text :: .punct mark :: ms)) :
    (wordThen text mark).Succeeds p fun _ q => q.Spells ms := by
  unfold wordThen
  refine (succeeds_spelled_word h).bind fun start q₁ hq₁ => ?_
  exact (succeeds_spelled_punctuation hq₁).bind fun stop q₂ hq₂ => Succeeds.pure hq₂

/-- A statement that is a word and a mark. -/
theorem readable_of_wordThen {text mark : String} {make : Range → Stmt}
    (hform : Grammar.standard.form? text = some fun _ => make <$> wordThen text mark)
    (hspelling : ∀ r, (make r).spelling = [.ident text, .punct mark])
    (hrelabel : ∀ r, (make r).relabel .plain = make .unknown) (range : Range) :
    (make range).Readable := by
  intro n p ms h hn _
  obtain ⟨n, rfl⟩ : ∃ k, n = k + 1 := ⟨n - 1, by omega⟩
  rw [hspelling] at h
  refine succeeds_statement_of_word h hform ?_
  refine Succeeds.map ((succeeds_wordThen h).mono fun r q hq => ⟨?_, hq⟩)
  rw [hrelabel, hrelabel]

/-- No form of statement starts with a word that is not one of theirs. -/
theorem form?_eq_none {text : String} (h : text ∉ "\x7b" :: statementWords) :
    Grammar.standard.form? text = none := by
  refine List.lookup_eq_none_iff.2 fun entry hentry => ?_
  rw [bne_iff_ne]
  rintro rfl
  have hmem : entry.1 ∈ forms.map Prod.fst := List.mem_map_of_mem hentry
  have hwords : forms.map Prod.fst = statementWords ++ ["\x7b"] := rfl
  rw [hwords] at hmem
  exact h (by simpa [or_comm] using hmem)

/-- An expression is read as a statement, because none of its words starts a form. -/
theorem readable_expr {e : Expr} (he : e.WellShaped) (hnames : NamesFree e.mentions)
    (range : Range) :
    (Stmt.expr e range).Readable := by
  intro n p ms h hn _
  obtain ⟨n, rfl⟩ : ∃ k, n = k + 1 := ⟨n - 1, by omega⟩
  simp only [spelling, List.append_assoc, List.cons_append, List.nil_append] at h hn
  have hform : formHere .standard p = exprStmt := by
    obtain ⟨m, ms', heq, hm⟩ := e.starts_spelling
    rw [heq] at h
    obtain ⟨⟨lexeme, r⟩, hc, ht⟩ := Parser.Spells.exists_current h
    rcases hm with ⟨value, rfl⟩ | ⟨i, hi, rfl⟩ | ⟨text, htext, rfl⟩
    · cases lexeme <;> simp [formHere, Parser.formWord?, hc]
      all_goals simp [TokenPattern.Fits, literalOf?] at ht
    · obtain rfl : lexeme = .identifier i.name := ht
      have hname := hnames _ hi i.name rfl
      have hnone : Grammar.standard.form? i.name = none := by
        refine form?_eq_none fun hmem => ?_
        rcases List.mem_cons.1 hmem with hbrace | hword
        · exact hname.ne_brace hbrace
        · exact hname.free (List.mem_cons_of_mem _ hword)
      simp [formHere, Parser.formWord?, hc, hnone]
    · obtain rfl : lexeme = .punctuation text := ht
      have hnone : Grammar.standard.form? text = none := by
        refine form?_eq_none fun hmem => ?_
        have : ∀ t ∈ startMarks, t ∉ "\x7b" :: statementWords := by decide
        exact this text htext hmem
      simp [formHere, Parser.formWord?, hc, hnone]
  rw [statement]
  refine Succeeds.get ?_
  rw [hform]
  unfold exprStmt
  refine (succeeds_spelled_expression he h (by omega) rfl rfl).bind ?_
  rintro e' q₁ ⟨he', hq₁⟩
  refine (succeeds_spelled_punctuation hq₁).bind fun stop q₂ hq₂ => Succeeds.pure ⟨?_, hq₂⟩
  exact congrArg (fun e => Stmt.expr e .unknown) he'

end Stmt

/-! ## Declarations and blocks -/

/-- From its words the declaration is read as a statement. -/
def Decl.Readable (d : Decl) : Prop :=
  (Parse.declStmt d).Readable

namespace Parse

variable {p : Parser} {ms : List TokenPattern} {n : Nat}

/-- A variable that is well formed is read as a statement. -/
theorem readable_declStmt_var {v : Variable} (hv : v.WellFormed) : (Decl.var v).Readable := by
  intro n p ms h hn _
  obtain ⟨n, rfl⟩ : ∃ k, n = k + 1 := ⟨n - 1, by omega⟩
  have hspelling : (declStmt (.var v)).spelling = v.spelling := rfl
  rw [hspelling] at h hn
  have hform : Grammar.standard.form? (Variable.word v.constant) =
      some fun k => (fun v => declStmt (.var v)) <$> variableDecl k v.constant := by
    cases v.constant <;> rfl
  refine succeeds_statement_of_word (h : p.Spells (.ident _ :: _)) hform ?_
  refine Succeeds.map ((succeeds_spelled_variableDecl hv h (by omega)).mono ?_)
  rintro v' q ⟨hv', hq⟩
  exact ⟨congrArg (fun v => Stmt.decl (.var v) .unknown) hv', hq⟩

/-- A function is read as a statement if its body can be read. -/
theorem readable_declStmt_func {id : DeclId} {ident : Ident} {type : Option TypeRef}
    {vars : List Variable} {body : Block} {scope own : ScopeId} {range : Range}
    (hvars : ∀ v ∈ vars, v.WellFormedParam) (hbody : body.Readable) :
    (Decl.func ⟨id, ident, type, vars, body, scope, own, range⟩).Readable := by
  intro n p ms h hn _
  obtain ⟨n, rfl⟩ : ∃ k, n = k + 1 := ⟨n - 1, by omega⟩
  simp only [declStmt, Stmt.spelling, Decl.spelling, Func.spelling, List.cons_append,
    List.append_assoc, List.length_cons, List.length_append] at h hn
  refine succeeds_statement_of_word h rfl (Succeeds.map ?_)
  unfold funcDecl
  refine (succeeds_spelled_word h).bind fun start q₁ hq₁ => ?_
  refine (succeeds_spelled_typeRef? hq₁ ⟨_, _, rfl⟩).bind ?_
  rintro type' q₂ ⟨htype, hq₂⟩
  refine (succeeds_spelled_identifier hq₂).bind ?_
  rintro ident' q₃ ⟨hident, hq₃⟩
  refine (succeeds_spelled_declare hq₃ ident').bind fun id' q₄ hq₄ => ?_
  refine Succeeds.get (Succeeds.opening fun own' scopes => ?_)
  refine (succeeds_spelled_params (p := { q₄ with scopes := scopes, scope := own' }) hvars hq₄
    (by omega)).bind ?_
  rintro vars' q₅ ⟨hvars', hq₅⟩
  refine (hbody own' hq₅ (by simp only [List.length_append]; omega)).bind ?_
  rintro body' q₆ ⟨hbody', hq₆⟩
  refine Succeeds.pure ⟨?_, hq₆⟩
  simp only [declStmt, Stmt.relabel, Decl.relabel, Func.relabel, htype, hident, hvars', hbody']
  rfl

/-- A declaration that can be read is accepted as one. -/
theorem succeeds_declaration {d : Decl} (hd : d.Readable) (h : p.Spells (d.spelling ++ ms))
    (hn : 3 * (d.spelling ++ ms).length + 4 ≤ n) :
    (declaration (statement .standard n)).Succeeds p fun d' q =>
      d'.relabel .plain = d.relabel .plain ∧ q.Spells ms := by
  unfold declaration
  have hread := hd (n := n) (p := p) h hn (by simp [declStmt])
  refine Succeeds.get (hread.bind ?_)
  rintro s q ⟨hs, hq⟩
  obtain ⟨d', range, rfl, hd'⟩ := Stmt.exists_decl_of_relabel hs
  exact Succeeds.pure ⟨hd', hq⟩

/-- A word that opens a statement does not end a block. -/
theorem blockEnds_eq_false {m : TokenPattern} (h : p.Spells (m :: ms)) (hm : m.Opens) :
    blockEnds p = false := by
  obtain ⟨t, hc, -⟩ := h.exists_current
  have hclose : p.isPunctuation "\x7d" = false :=
    h.isPunctuation_eq_false (by simpa using hm.ne_close)
  simp [blockEnds, hclose, Parser.isEmpty, hc]

/-- Members are read one after the other up to the closing brace. -/
theorem succeeds_members {decls : List Decl} (hdecls : ∀ d ∈ decls, d.Readable)
    (h : p.Spells (.punct "\x7b" :: (Decl.allSpelling decls ++ .punct "\x7d" :: ms)))
    (hn : 3 * (Decl.allSpelling decls ++ .punct "\x7d" :: ms).length + 4 ≤ n) :
    (members (nested .standard n)).Succeeds p fun a q =>
      a.1.map (Decl.relabel .plain) = decls.map (Decl.relabel .plain) ∧ q.Spells ms := by
  rw [Decl.allSpelling_eq_flatMap] at h hn
  have hitem : ∀ d ∈ decls, ReadsSpelled (declaration (statement .standard n)) blockEnds
      (Decl.relabel .plain) (fun _ => True)
      (decls.flatMap Decl.spelling ++ .punct "\x7d" :: ms).length d
      d.spelling := by
    intro d hd q ns hq hsize _
    obtain ⟨m, ns', heq, hm⟩ := d.opens_spelling
    have hfirst : q.Spells (m :: (ns' ++ ns)) := by simpa [heq] using hq
    exact ⟨blockEnds_eq_false hfirst hm, succeeds_declaration (hdecls d hd) hq (by omega)⟩
  have hlen : decls.length ≤ (decls.flatMap Decl.spelling).length := by
    refine length_le_flatMap fun d _ => ?_
    obtain ⟨m, ns, heq, -⟩ := d.opens_spelling
    simp [heq]
  unfold members
  refine (succeeds_spelled_punctuation h).bind fun left q₁ hq₁ => ?_
  refine (succeeds_itemsUntil trivial (fun q hq => ?_) (fun _ _ _ => trivial) hitem ?_
    (Nat.le_refl _)
    hq₁).bind ?_
  · simp [blockEnds, hq.isPunctuation]
  · simp only [List.length_append, nested] at hn ⊢
    omega
  · rintro decls' q₂ ⟨hdecls', hq₂⟩
    exact (succeeds_spelled_punctuation hq₂).bind fun right q₃ hq₃ => Succeeds.pure ⟨hdecls', hq₃⟩

/-- A class or a namespace is read as a statement if its members can be read. -/
theorem readable_declStmt_group {kind : GroupKind} {id : DeclId} {ident : Ident} {decls : List Decl}
    {membersRange : Range} {scope own : ScopeId} {range : Range}
    (hdecls : ∀ d ∈ decls, d.Readable) :
    (Decl.group ⟨kind, id, ident, decls, membersRange, scope, own, range⟩).Readable := by
  intro n p ms h hn _
  obtain ⟨n, rfl⟩ : ∃ k, n = k + 1 := ⟨n - 1, by omega⟩
  simp only [declStmt, Stmt.spelling, Decl.spelling, Group.spelling, List.cons_append,
    List.append_assoc, List.nil_append, List.length_cons, List.length_append] at h hn
  have hform : Grammar.standard.form? (groupWord kind) =
      some fun k => (fun g => declStmt (.group g)) <$> groupDecl kind k := by
    cases kind <;> rfl
  refine succeeds_statement_of_word h hform (Succeeds.map ?_)
  unfold groupDecl
  refine (succeeds_spelled_word h).bind fun start q₁ hq₁ => ?_
  refine (succeeds_spelled_identifier hq₁).bind ?_
  rintro ident' q₂ ⟨hident, hq₂⟩
  refine (succeeds_spelled_declare hq₂ ident').bind fun id' q₃ hq₃ => ?_
  refine Succeeds.get (Succeeds.opening fun own' scopes => ?_)
  refine (succeeds_members (p := { q₃ with scopes := scopes, scope := own' }) hdecls hq₃
    (by simp only [List.length_append, List.length_cons]; omega)).bind ?_
  rintro a q₄ ⟨ha, hq₄⟩
  refine Succeeds.pure ⟨?_, hq₄⟩
  simp only [declStmt, Stmt.relabel, Decl.relabel, Group.relabel, hident,
    Decl.relabelAll_eq_map, ha]
  rfl

/-- Statements are read one after the other until the test holds. -/
theorem succeeds_stmts {ss : List Stmt} {stop : Parser → Bool} {fuel : Nat}
    (hss : ∀ s ∈ ss, s.Readable ∧ ∃ m ns, s.spelling = m :: ns ∧ m.Opens)
    (hgo : ∀ q m ns, q.Spells (m :: ns) → m.Opens → stop q = false)
    (hstop : ∀ q, q.Spells ms → stop q) (hend : NoElse ms)
    (h : p.Spells (Stmt.allSpelling ss ++ ms)) (hn : 3 * (Stmt.allSpelling ss ++ ms).length + 4 ≤ n)
    (hfuel : (Stmt.allSpelling ss).length < fuel) :
    (itemsUntil stop (statement .standard n) fuel).Succeeds p fun ss' q =>
      Stmt.relabelAll .plain ss' = Stmt.relabelAll .plain ss ∧ q.Spells ms := by
  simp only [Stmt.allSpelling_eq_flatMap] at h hn hfuel
  simp only [Stmt.relabelAll_eq_map]
  have hitem : ∀ s ∈ ss, ReadsSpelled (statement .standard n) stop (Stmt.relabel .plain) NoElse
      (ss.flatMap Stmt.spelling ++ ms).length s s.spelling := by
    intro s hs q ns hq hsize hns
    obtain ⟨hread, m, ns', heq, hm⟩ := hss s hs
    have hfirst : q.Spells (m :: (ns' ++ ns)) := by simpa [heq] using hq
    exact ⟨hgo q m _ hfirst hm, hread hq (by omega) fun _ => hns⟩
  have hafter : ∀ s ∈ ss, ∀ ns, NoElse (s.spelling ++ ns) := by
    intro s hs ns
    obtain ⟨-, m, ns', heq, hm⟩ := hss s hs
    rw [heq]
    exact noElse_of_opens hm
  have hlen : ss.length ≤ (ss.flatMap Stmt.spelling).length := by
    refine length_le_flatMap fun s hs => ?_
    obtain ⟨-, m, ns, heq, -⟩ := hss s hs
    simp [heq]
  exact succeeds_itemsUntil hend hstop hafter hitem (by omega) (Nat.le_refl _) h

end Parse

/-- Statements are read one after the other up to the closing brace. -/
theorem Parse.succeeds_blockItems {stmts : List Stmt} {n : Nat} {p : Parser}
    {ms : List TokenPattern}
    (hss : ∀ s ∈ stmts, s.Readable ∧ ∃ m ns, s.spelling = m :: ns ∧ m.Opens) (scope : ScopeId)
    (h : p.Spells (Stmt.allSpelling stmts ++ .punct "\x7d" :: ms))
    (hn : 3 * (Stmt.allSpelling stmts ++ .punct "\x7d" :: ms).length + 4 ≤ n) :
    (within scope do
      let stmts ← itemsUntil blockEnds (statement .standard n) n
      let right ← punctuation "\x7d"
      return (stmts, right)).Succeeds p fun a q =>
        Stmt.relabelAll .plain a.1 = Stmt.relabelAll .plain stmts ∧ q.Spells ms := by
  refine Succeeds.within ?_
  refine (succeeds_stmts (p := { p with scope := scope }) hss (fun q m ns => blockEnds_eq_false)
    (fun q hq => ?_) (noElse_punct _ _) h hn ?_).bind ?_
  · simp [blockEnds, hq.isPunctuation]
  · simp only [List.length_append] at hn
    omega
  · rintro stmts' q₁ ⟨hstmts, hq₁⟩
    exact (succeeds_spelled_punctuation hq₁).bind fun right q₂ hq₂ => Succeeds.pure ⟨hstmts, hq₂⟩

/-- A block can be read if its statements can. -/
theorem Block.readable_of_stmts {stmts : List Stmt} {scope : ScopeId} {range : Range}
    (hss : ∀ s ∈ stmts, s.Readable ∧ ∃ m ns, s.spelling = m :: ns ∧ m.Opens) :
    (Block.mk stmts scope range).Readable := by
  intro n p ms own h hn
  simp only [Block.spelling, List.cons_append, List.append_assoc, List.nil_append, List.length_cons,
    List.length_append] at h hn
  unfold Parse.blockIn
  refine (Parse.succeeds_spelled_punctuation h).bind fun left q₁ hq₁ => ?_
  refine (Parse.succeeds_blockItems hss own hq₁ (by
    simp only [List.length_append, List.length_cons]; omega)).bind ?_
  rintro ⟨stmts', right⟩ q₂ ⟨hstmts, hq₂⟩
  refine Parse.Succeeds.pure ⟨?_, hq₂⟩
  exact congrArg (fun ss => Block.mk ss .global .unknown) hstmts

theorem Stmt.readable_block {b : Block} (hb : b.Readable) : (Stmt.block b).Readable := by
  intro n p ms h hn _
  obtain ⟨n, rfl⟩ : ∃ k, n = k + 1 := ⟨n - 1, by omega⟩
  have hspelling : (Stmt.block b).spelling = b.spelling := rfl
  rw [hspelling] at h hn
  obtain ⟨stmts, scope, range⟩ := b
  have hfirst : p.Spells (.punct "\x7b" :: (Stmt.allSpelling stmts ++ [.punct "\x7d"] ++ ms)) := h
  obtain ⟨⟨_, r⟩, hc, ht⟩ := hfirst.exists_current
  obtain rfl : _ = Lexeme.punctuation "\x7b" := ht
  have hform : Parse.formHere .standard p = fun k => .block <$> Parse.block k := by
    simp only [Parse.formHere, Parser.formWord?, hc]
    rfl
  rw [Parse.statement]
  refine Parse.Succeeds.get ?_
  rw [hform]
  refine Parse.Succeeds.map ((hb.succeeds_block h (by omega)).mono ?_)
  rintro b' q ⟨hb', hq⟩
  exact ⟨congrArg Stmt.block hb', hq⟩

mutual

/-- A well-formed statement with proper names is read back from its words. -/
theorem Stmt.readable : ∀ s : Stmt, s.WellFormed → NamesFree s.mentions → s.Readable
  | .expr e range, h, hnames => Stmt.readable_expr h hnames range
  | .decl d range, h, hnames => by
    intro n p ms hp hn hends
    exact d.readable h hnames hp hn hends
  | .block b, h, hnames => Stmt.readable_block (b.readable h hnames)
  | .ifElse c a none range, h, hnames =>
    Stmt.readable_ifElse_none h.1
      (a.readable h.2.1 (hnames.mono fun m hm => by simp [Stmt.mentions, hm])) range
  | .ifElse c a (some b) range, h, hnames =>
    Stmt.readable_ifElse_some h.1
      (a.readable h.2.1 (hnames.mono fun m hm => by simp [Stmt.mentions, hm]))
      (b.readable h.2.2.1 (hnames.mono fun m hm => by simp [Stmt.mentions, Stmt.mentions?, hm]))
      (h.2.2.2 rfl) range
  | .whileDo c body range, h, hnames =>
    Stmt.readable_whileDo h.1
      (body.readable h.2 (hnames.mono fun m hm => by simp [Stmt.mentions, hm])) range
  | .doWhile body c range, h, hnames =>
    Stmt.readable_doWhile
      (body.readable h.1 (hnames.mono fun m hm => by simp [Stmt.mentions, hm])) h.2 range
  | .forLoop none c step body scope range, h, hnames =>
    Stmt.readable_forLoop (by simp) h.2.1
      (hnames.mono fun m hm => by simp [Stmt.mentions, hm]) h.2.2.1
      (body.readable h.2.2.2 (hnames.mono fun m hm => by simp [Stmt.mentions, hm])) scope range
  | .forLoop (some init) c step body scope range, h, hnames => by
    have hinit : NamesFree init.mentions :=
      hnames.mono fun m hm => by simp [Stmt.mentions, Stmt.mentions?, hm]
    refine Stmt.readable_forLoop ?_ h.2.1
      (hnames.mono fun m hm => by simp [Stmt.mentions, hm]) h.2.2.1
      (body.readable h.2.2.2 (hnames.mono fun m hm => by simp [Stmt.mentions, hm])) scope range
    rintro _ ⟨⟩
    exact ⟨init.readable h.1 hinit, init.opens_spelling hinit⟩
  | .switch subject body range, h, hnames =>
    Stmt.readable_switch h.1
      (body.readable h.2 (hnames.mono fun m hm => by simp [Stmt.mentions, hm])) range
  | .caseLabel value range, h, _ => Stmt.readable_caseLabel h range
  | .defaultLabel range, _, _ => Stmt.readable_of_wordThen rfl (fun _ => rfl) (fun _ => rfl) range
  | .continue range, _, _ => Stmt.readable_of_wordThen rfl (fun _ => rfl) (fun _ => rfl) range
  | .break range, _, _ => Stmt.readable_of_wordThen rfl (fun _ => rfl) (fun _ => rfl) range
  | .return value range, h, _ => Stmt.readable_return h range

/-- Each of some well-formed statements can be read and starts with a word that opens one. -/
theorem Stmt.readable_of_mem :
    ∀ ss : List Stmt, Stmt.AllWellFormed ss → NamesFree (Stmt.mentionsAll ss) →
    ∀ s ∈ ss, s.Readable ∧ ∃ m ns, s.spelling = m :: ns ∧ m.Opens
  | [], _, _, _, hs => absurd hs List.not_mem_nil
  | s :: rest, h, hnames, s', hs => by
    rcases List.mem_cons.1 hs with heq | hs
    · have hs : NamesFree s.mentions := hnames.mono fun m hm => by simp [Stmt.mentionsAll, hm]
      rw [heq]
      exact ⟨s.readable h.1 hs, s.opens_spelling hs⟩
    · exact Stmt.readable_of_mem rest h.2
        (hnames.mono fun m hm => by simp [Stmt.mentionsAll, hm]) s' hs

theorem Block.readable : ∀ b : Block, b.WellFormed → NamesFree b.mentions → b.Readable
  | ⟨stmts, _, _⟩, h, hnames => Block.readable_of_stmts (Stmt.readable_of_mem stmts h hnames)

/-- Every well-formed declaration can be read. -/
theorem Decl.readable : ∀ d : Decl, d.WellFormed → NamesFree d.mentions → d.Readable
  | .var _, h, _ => Parse.readable_declStmt_var h
  | .func f, h, hnames => f.readable h hnames
  | .group g, h, hnames => g.readable h hnames

theorem Decl.readable_of_mem :
    ∀ ds : List Decl, Decl.AllWellFormed ds → NamesFree (Decl.mentionsAll ds) →
    ∀ d ∈ ds, d.Readable
  | [], _, _, _, hd => absurd hd List.not_mem_nil
  | d :: rest, h, hnames, d', hd => by
    rcases List.mem_cons.1 hd with heq | hd
    · rw [heq]
      exact d.readable h.1 (hnames.mono fun m hm => by simp [Decl.mentionsAll, hm])
    · exact Decl.readable_of_mem rest h.2
        (hnames.mono fun m hm => by simp [Decl.mentionsAll, hm]) d' hd

theorem Func.readable : ∀ f : Func, f.WellFormed → NamesFree f.mentions → (Decl.func f).Readable
  | ⟨_, _, _, _, body, _, _, _⟩, h, hnames =>
    Parse.readable_declStmt_func h.1
      (body.readable h.2 (hnames.mono fun m hm => by simp [Func.mentions, hm]))

theorem Group.readable : ∀ g : Group, g.WellFormed → NamesFree g.mentions → (Decl.group g).Readable
  | ⟨_, _, _, members, _, _, _, _⟩, h, hnames =>
    Parse.readable_declStmt_group
      (Decl.readable_of_mem members h (hnames.mono fun m hm => by simp [Group.mentions, hm]))

end

end Rill
