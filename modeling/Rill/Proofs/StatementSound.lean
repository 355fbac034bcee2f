import Rill.Proofs.Closure
import Rill.Proofs.ExpressionSound

/-!
# What reading a statement takes

A statement that is read was read from the tokens taken and is well-formed, and an `else`
never follows one that could have taken it (`Stmt.IsRead`). The forms of statements call back
for expressions and for statements inside them; `Nested.Sound` says that both behave, and
each form then behaves too.
-/

namespace Rill

open Grammar (standardOperators)

/-- The statement was read from the tokens and is well-formed. If it ends in an `if` without `else`,
no `else` comes next. -/
def Stmt.IsRead (s : Stmt) (ts : List Token) (q : Parser) : Prop :=
  s.ReadFrom ts ∧ s.WellFormed ∧ (s.endsOpen → q.isIdentifier "else" = false)

/-- What forms call back for reads expressions and statements. -/
structure Nested.Sound (k : Nested) : Prop where
  expr : ∀ p, k.expr.Takes p fun e ts _ => e.ReadFrom ts ∧ e.WellShaped
  stmt : ∀ p, k.stmt.Takes p Stmt.IsRead

/-- Statements that were read one by one were read from their tokens together. -/
theorem Stmt.allReadFrom_of_listed {ss : List Stmt} {ts : List Token}
    (h : Parse.Listed (fun s us => s.ReadFrom us ∧ s.WellFormed) ss ts) :
    Stmt.AllReadFrom ss ts ∧ Stmt.AllWellFormed ss := by
  induction h with
  | nil => exact ⟨rfl, trivial⟩
  | cons hx _ ih => exact ⟨⟨_, _, rfl, hx.1, ih.1⟩, hx.2, ih.2⟩

theorem Decl.allReadFrom_of_listed {ds : List Decl} {ts : List Token}
    (h : Parse.Listed (fun d us => d.ReadFrom us ∧ d.WellFormed) ds ts) :
    Decl.AllReadFrom ds ts ∧ Decl.AllWellFormed ds := by
  induction h with
  | nil => exact ⟨rfl, trivial⟩
  | cons hx _ ih => exact ⟨⟨_, _, rfl, hx.1, ih.1⟩, hx.2, ih.2⟩

/-- Parameters that were read have no initial value. -/
theorem Variable.wellFormed_of_separated {vars : List Variable} {ts : List Token}
    (h : Parse.Separated Variable.ParamReadFrom vars ts) : ∀ v ∈ vars, v.WellFormedParam := by
  have hparam : ∀ {v : Variable} {us}, v.ParamReadFrom us → v.WellFormedParam := by
    rintro v us ⟨_, _, _, hinit, hconst, _⟩
    exact ⟨⟨by simp [hinit], by simp [hconst]⟩, hinit⟩
  induction h with
  | nil => simp
  | one hx => simpa using hparam hx
  | cons hx _ ih => exact List.forall_mem_cons.2 ⟨hparam hx, ih⟩

namespace Parse

variable {k : Nested}

/-! ## Declarations -/

/-- A type that is read was read from its token, or from none. -/
theorem takes_typeRef? (p : Parser) :
    typeRef?.Takes p fun type ts _ => TypeRef.ReadFrom type ts := by
  unfold typeRef?
  refine Takes.get ?_
  split
  · rename_i type r hc
    refine (takes_advance hc).bind ?_
    rintro _ _ _ ⟨-, rfl, -⟩
    exact Takes.pure ⟨r, rfl⟩
  · by_cases hf : p.identifierFollows
    · rw [if_pos hf]
      refine takes_identifier.bind ?_
      rintro ident _ _ ⟨rfl, -⟩
      exact Takes.pure rfl
    · rw [if_neg hf]
      exact Takes.pure rfl
  · exact Takes.pure rfl

/-- An initial value is well shaped, and a constant has one. -/
theorem takes_initialValue (hk : k.Sound) (constant : Bool) (p : Parser) :
    (initialValue k constant).Takes p fun init ts _ => Expr.InitReadFrom init ts ∧
      (∀ e, init = some e → e.WellShaped) ∧ (constant → init.isSome) := by
  unfold initialValue
  refine (takes_accept "=").bind ?_
  rintro _ _ q (⟨rfl, r, rfl⟩ | ⟨rfl, rfl, -, -⟩)
  · refine Takes.map ((hk.expr q).mono fun e ts _ ⟨hread, hshape⟩ => ⟨⟨ts, r, rfl, hread⟩, ?_, ?_⟩)
    · rintro _ ⟨⟩
      exact hshape
    · exact fun _ => rfl
  · cases constant with
    | true => exact takes_failExpected
    | false => exact Takes.pure ⟨rfl, by simp, by simp⟩

/-- A variable that is read is well formed. -/
theorem takes_variableDecl (hk : k.Sound) (constant : Bool) (p : Parser) :
    (variableDecl k constant).Takes p fun v ts _ => v.ReadFrom ts ∧ v.WellFormed := by
  unfold variableDecl
  refine (takes_word _).bind ?_
  rintro start _ _ ⟨hstart, rfl, -⟩
  refine (takes_typeRef? _).bind fun type us _ htype => ?_
  refine takes_identifier.bind ?_
  rintro ident _ _ ⟨rfl, -⟩
  refine (takes_declare ident).bind ?_
  rintro id _ _ ⟨rfl, -⟩
  refine (takes_initialValue hk constant _).bind ?_
  rintro init vs _ ⟨hinit, hshape, hconst⟩
  refine (takes_punctuation ";").bind ?_
  rintro stop _ _ ⟨hstop, rfl, -⟩
  refine Takes.get
    (Takes.pure ⟨⟨us, vs, start.range, stop.range, ?_, htype, hinit, rfl⟩, hshape, hconst⟩)
  rw [← hstop]
  have hword : start = ⟨.identifier (Variable.word constant), start.range⟩ := hstart
  rw [← hword]
  simp

theorem takes_param (p : Parser) : param.Takes p fun v ts _ => v.ParamReadFrom ts := by
  unfold param
  refine (takes_typeRef? _).bind fun type us _ htype => ?_
  refine takes_identifier.bind ?_
  rintro ident _ _ ⟨rfl, -⟩
  refine (takes_declare ident).bind ?_
  rintro id _ _ ⟨rfl, -⟩
  exact Takes.get (Takes.pure ⟨us, by simp, htype, rfl, rfl, rfl⟩)

/-- Parameters are read from tokens in parentheses. -/
theorem takes_params (p : Parser) :
    (params k).Takes p fun vars ts _ => ∃ us l r,
      ts = ⟨.punctuation "(", l⟩ :: (us ++ [⟨.punctuation ")", r⟩]) ∧
        Separated Variable.ParamReadFrom vars us := by
  unfold params
  refine (takes_punctuation "(").bind ?_
  rintro left _ _ ⟨hleft, rfl, -⟩
  refine (takes_separated takes_param k.fuel _).bind ?_
  rintro vars us _ ⟨hvars, _⟩
  refine (takes_punctuation ")").bind ?_
  rintro right _ _ ⟨hright, rfl, -⟩
  refine Takes.pure ⟨us, left.range, right.range, ?_, hvars⟩
  rw [← hleft, ← hright]
  simp

/-- Statements up to a brace are read from the tokens before it. -/
theorem takes_blockItems (hk : k.Sound) (scope : ScopeId) (p : Parser) :
    (within scope do
      let stmts ← itemsUntil blockEnds k.stmt k.fuel
      let right ← punctuation "\x7d"
      return (stmts, right)).Takes p fun a ts _ => ∃ us,
        ts = us ++ [⟨.punctuation "\x7d", a.2.range⟩] ∧ Stmt.AllReadFrom a.1 us ∧
          Stmt.AllWellFormed a.1 := by
  refine Takes.within ?_
  refine (takes_itemsUntil (R := fun s us => s.ReadFrom us ∧ s.WellFormed)
    (fun q => (hk.stmt q).mono fun s us _ h => ⟨h.1, h.2.1⟩) k.fuel _).bind ?_
  rintro stmts us _ ⟨hlisted, -⟩
  obtain ⟨hread, hwell⟩ := Stmt.allReadFrom_of_listed hlisted
  refine (takes_punctuation "\x7d").bind ?_
  rintro right _ _ ⟨hright, rfl, -⟩
  refine Takes.pure ⟨us, ?_, hread, hwell⟩
  rw [← hright]
  simp

theorem takes_blockIn (hk : k.Sound) (scope : ScopeId) (p : Parser) :
    (blockIn k scope).Takes p fun b ts _ => b.ReadFrom ts ∧ b.WellFormed := by
  unfold blockIn
  refine (takes_punctuation "\x7b").bind ?_
  rintro left _ q ⟨hleft, rfl, -⟩
  refine (takes_blockItems hk scope _).bind ?_
  rintro ⟨stmts, right⟩ _ _ ⟨us, rfl, hread, hwell⟩
  refine Takes.pure ⟨⟨us, left.range, right.range, ?_, hread, rfl⟩, hwell⟩
  rw [← hleft]
  simp

theorem takes_block (hk : k.Sound) (p : Parser) :
    (block k).Takes p fun b ts _ => b.ReadFrom ts ∧ b.WellFormed :=
  Takes.opening fun id _ => takes_blockIn hk id _

/-- A function that is read is well formed. -/
theorem takes_funcDecl (hk : k.Sound) (p : Parser) :
    (funcDecl k).Takes p fun f ts _ => f.ReadFrom ts ∧ f.WellFormed := by
  unfold funcDecl
  refine (takes_word "func").bind ?_
  rintro start _ _ ⟨hstart, rfl, -⟩
  refine (takes_typeRef? _).bind fun type us _ htype => ?_
  refine takes_identifier.bind ?_
  rintro ident _ _ ⟨rfl, -⟩
  refine (takes_declare ident).bind ?_
  rintro id _ _ ⟨rfl, -⟩
  refine Takes.get (Takes.opening fun own _ => ?_)
  refine (takes_params _).bind ?_
  rintro vars _ _ ⟨vs, l, r, rfl, hvars⟩
  refine (takes_blockIn hk own _).bind ?_
  rintro body ws _ ⟨hbody, hwell⟩
  refine Takes.pure ⟨⟨us, vs, ws, start.range, l, r, ?_, htype, hvars, hbody, rfl⟩,
    Variable.wellFormed_of_separated hvars, hwell⟩
  rw [← hstart]
  simp

/-- A declaration is the one of the statement that was read. -/
theorem takes_declaration {stmt : Parse Stmt} (hstmt : ∀ p, stmt.Takes p Stmt.IsRead) (p : Parser) :
    (declaration stmt).Takes p fun d ts _ => d.ReadFrom ts ∧ d.WellFormed := by
  unfold declaration
  refine Takes.get ((hstmt p).bind fun s ts q h => ?_)
  cases s with
  | decl d range =>
    obtain ⟨⟨hread, -⟩, hwell, -⟩ := h
    exact Takes.pure ⟨by simpa using hread, hwell⟩
  | _ => exact takes_throw

theorem takes_members (hk : k.Sound) (p : Parser) :
    (members k).Takes p fun a ts _ => ∃ us l r,
      ts = ⟨.punctuation "\x7b", l⟩ :: (us ++ [⟨.punctuation "\x7d", r⟩]) ∧
        Decl.AllReadFrom a.1 us ∧
        a.2 = l.merge r ∧ Decl.AllWellFormed a.1 := by
  unfold members
  refine (takes_punctuation "\x7b").bind ?_
  rintro left _ q ⟨hleft, rfl, -⟩
  refine (takes_itemsUntil (takes_declaration hk.stmt) k.fuel q).bind ?_
  rintro decls us _ ⟨hlisted, -⟩
  obtain ⟨hread, hwell⟩ := Decl.allReadFrom_of_listed hlisted
  refine (takes_punctuation "\x7d").bind ?_
  rintro right _ _ ⟨hright, rfl, -⟩
  refine Takes.pure ⟨us, left.range, right.range, ?_, hread, rfl, hwell⟩
  rw [← hleft, ← hright]
  simp

/-- A class or a namespace that is read is well formed. -/
theorem takes_groupDecl (hk : k.Sound) (kind : GroupKind) (p : Parser) :
    (groupDecl kind k).Takes p fun g ts _ => g.ReadFrom ts ∧ g.WellFormed := by
  unfold groupDecl
  refine (takes_word (groupWord kind)).bind ?_
  rintro start _ _ ⟨hstart, rfl, -⟩
  refine takes_identifier.bind ?_
  rintro ident _ _ ⟨rfl, -⟩
  refine (takes_declare ident).bind ?_
  rintro id _ _ ⟨rfl, -⟩
  refine Takes.get (Takes.opening fun own _ => ?_)
  refine (takes_members hk _).bind ?_
  rintro ⟨decls, _⟩ _ _ ⟨us, l, r, rfl, hread, rfl, hwell⟩
  refine Takes.pure ⟨⟨us, start.range, l, r, ?_, hread, rfl, rfl⟩, hwell⟩
  rw [← hstart]
  simp

/-! ## The forms of statements -/

/-- A condition is read from tokens in parentheses, and is well shaped. -/
theorem takes_condition (hk : k.Sound) (p : Parser) :
    (condition k).Takes p fun e ts _ => (∃ us l r,
      ts = ⟨.punctuation "(", l⟩ :: (us ++ [⟨.punctuation ")", r⟩]) ∧ e.ReadFrom us) ∧
      e.WellShaped := by
  unfold condition
  refine (takes_punctuation "(").bind ?_
  rintro left _ _ ⟨hleft, rfl, -⟩
  refine (hk.expr _).bind ?_
  rintro e us _ ⟨hread, hshape⟩
  refine (takes_punctuation ")").bind ?_
  rintro right _ _ ⟨hright, rfl, -⟩
  refine Takes.pure ⟨⟨us, left.range, right.range, ?_, hread⟩, hshape⟩
  rw [← hleft, ← hright]
  simp

theorem takes_unlessAt (hk : k.Sound) (text : String) (p : Parser) :
    (unlessAt text k).Takes p fun e ts _ => Expr.ReadFrom? e ts ∧ ∀ e', e = some e' →
    e'.WellShaped := by
  unfold unlessAt
  refine Takes.get ?_
  by_cases h : p.isPunctuation text
  · rw [if_pos h]
    exact Takes.pure ⟨rfl, by simp⟩
  · rw [if_neg h]
    refine Takes.map ((hk.expr p).mono fun e ts _ ⟨hread, hshape⟩ => ⟨hread, ?_⟩)
    rintro _ ⟨⟩
    exact hshape

/-- An `if` takes the `else` after its first branch, if there is one. So that branch does
not end in an open `if`. -/
theorem takes_ifForm (hk : k.Sound) (p : Parser) : (ifForm k).Takes p Stmt.IsRead := by
  unfold ifForm
  refine (takes_word "if").bind ?_
  rintro start _ _ ⟨hstart, rfl, -⟩
  refine (takes_condition hk _).bind ?_
  rintro c _ _ ⟨⟨us, l, r, rfl, hc⟩, hcshape⟩
  refine (hk.stmt _).bind ?_
  rintro a vs q ⟨ha, hawell, hopen⟩
  refine Takes.get ?_
  by_cases helse : q.isIdentifier "else"
  · rw [if_pos helse]
    obtain ⟨t, ht, hname⟩ := (Option.any_eq_true _ _).1 helse
    have htoken : t = ⟨.identifier "else", t.range⟩ := by
      simp only [Token.isIdentifier, beq_iff_eq] at hname
      rw [← hname]
    refine (takes_advance ht).bind ?_
    rintro _ _ _ ⟨-, rfl, -⟩
    refine (hk.stmt _).bind ?_
    rintro b ws q' ⟨hb, hbwell, hbopen⟩
    have hclosed : a.endsOpen = false := by
      by_contra hne
      simp [hopen (by simpa using hne)] at helse
    refine Takes.pure ⟨⟨us, vs, t :: ws, start.range, l, r, ?_, hc, ha, ws, t.range, ?_, hb, rfl⟩,
      ⟨hcshape, hawell, hbwell, fun _ => hclosed⟩, hbopen⟩
    · rw [← hstart]
      simp
    · rw [← htoken]
  · rw [if_neg helse]
    refine Takes.pure ⟨⟨us, vs, [], start.range, l, r, ?_, hc, ha, rfl, rfl⟩,
      ⟨hcshape, hawell, trivial, by simp⟩, fun _ => by simpa using helse⟩
    rw [← hstart]
    simp

theorem takes_whileForm (hk : k.Sound) (p : Parser) : (whileForm k).Takes p Stmt.IsRead := by
  unfold whileForm
  refine (takes_word "while").bind ?_
  rintro start _ _ ⟨hstart, rfl, -⟩
  refine (takes_condition hk _).bind ?_
  rintro c _ _ ⟨⟨us, l, r, rfl, hc⟩, hcshape⟩
  refine (hk.stmt _).bind ?_
  rintro body vs q ⟨hbody, hwell, hopen⟩
  refine Takes.pure ⟨⟨us, vs, start.range, l, r, ?_, hc, hbody, rfl⟩, ⟨hcshape, hwell⟩, hopen⟩
  rw [← hstart]
  simp

theorem takes_doForm (hk : k.Sound) (p : Parser) : (doForm k).Takes p Stmt.IsRead := by
  unfold doForm
  refine (takes_word "do").bind ?_
  rintro start _ _ ⟨hstart, rfl, -⟩
  refine (hk.stmt _).bind ?_
  rintro body us _ ⟨hbody, hwell, _⟩
  refine (takes_word "while").bind ?_
  rintro again _ _ ⟨hagain, rfl, -⟩
  refine (takes_condition hk _).bind ?_
  rintro c _ _ ⟨⟨vs, l, r, rfl, hc⟩, hcshape⟩
  refine (takes_punctuation ";").bind ?_
  rintro stop _ _ ⟨hstop, rfl, -⟩
  refine Takes.pure ⟨⟨us, vs, start.range, again.range, l, r, stop.range, ?_, hbody, hc, rfl⟩,
    ⟨hwell, hcshape⟩, by simp⟩
  rw [← hstart, ← hagain, ← hstop]
  simp

/-- The first part of a `for` loop is a statement or a semicolon. -/
theorem takes_forInit (hk : k.Sound) (p : Parser) :
    (forInit k).Takes p fun init ts _ => Stmt.InitReadFrom init ts ∧ Stmt.OptWellFormed init := by
  unfold forInit
  refine (takes_accept ";").bind ?_
  rintro _ _ q (⟨rfl, r, rfl⟩ | ⟨rfl, rfl, -, -⟩)
  · exact Takes.pure ⟨⟨r, rfl⟩, trivial⟩
  · exact Takes.map ((hk.stmt q).mono fun s ts _ ⟨hread, hwell, _⟩ => ⟨hread, hwell⟩)

/-- A `for` loop ends in an open `if` only if its body does. -/
theorem takes_forForm (hk : k.Sound) (p : Parser) : (forForm k).Takes p Stmt.IsRead := by
  unfold forForm
  refine (takes_word "for").bind ?_
  rintro start _ _ ⟨hstart, rfl, -⟩
  refine Takes.opening fun scope _ => ?_
  refine (takes_punctuation "(").bind ?_
  rintro left _ _ ⟨hleft, rfl, -⟩
  refine (takes_forInit hk _).bind ?_
  rintro init us _ ⟨hinit, hiwell⟩
  refine (takes_unlessAt hk ";" _).bind ?_
  rintro c vs _ ⟨hc, hcshape⟩
  refine (takes_punctuation ";").bind ?_
  rintro mark _ _ ⟨hmark, rfl, -⟩
  refine (takes_unlessAt hk ")" _).bind ?_
  rintro step ws _ ⟨hstep, hsshape⟩
  refine (takes_punctuation ")").bind ?_
  rintro right _ _ ⟨hright, rfl, -⟩
  refine (hk.stmt _).bind ?_
  rintro body xs q ⟨hbody, hwell, hopen⟩
  refine Takes.pure
    ⟨⟨us, vs, ws, xs, start.range, left.range, mark.range, right.range, ?_, hinit, hc, hstep,
    hbody, rfl⟩, ⟨hiwell, hcshape, hsshape, hwell⟩, hopen⟩
  rw [← hstart, ← hleft, ← hmark, ← hright]
  simp

theorem takes_switchForm (hk : k.Sound) (p : Parser) : (switchForm k).Takes p Stmt.IsRead := by
  unfold switchForm
  refine (takes_word "switch").bind ?_
  rintro start _ _ ⟨hstart, rfl, -⟩
  refine (takes_condition hk _).bind ?_
  rintro c _ _ ⟨⟨us, l, r, rfl, hc⟩, hcshape⟩
  refine (takes_block hk _).bind ?_
  rintro body vs _ ⟨hbody, hwell⟩
  refine Takes.pure ⟨⟨us, vs, start.range, l, r, ?_, hc, hbody, rfl⟩, ⟨hcshape, hwell⟩,
    by simp⟩
  rw [← hstart]
  simp

theorem takes_caseForm (hk : k.Sound) (p : Parser) : (caseForm k).Takes p Stmt.IsRead := by
  unfold caseForm
  refine (takes_word "case").bind ?_
  rintro start _ _ ⟨hstart, rfl, -⟩
  refine (hk.expr _).bind ?_
  rintro e us _ ⟨hread, hshape⟩
  refine (takes_punctuation ":").bind ?_
  rintro stop _ _ ⟨hstop, rfl, -⟩
  refine Takes.pure ⟨⟨us, start.range, stop.range, ?_, hread, rfl⟩, hshape, by simp⟩
  rw [← hstart, ← hstop]
  simp

theorem takes_wordThen (text mark : String) (p : Parser) :
    (wordThen text mark).Takes p fun range ts _ => ∃ s r,
      ts = [⟨.identifier text, s⟩, ⟨.punctuation mark, r⟩] ∧ range = s.merge r := by
  unfold wordThen
  refine (takes_word text).bind ?_
  rintro start _ _ ⟨hstart, rfl, -⟩
  refine (takes_punctuation mark).bind ?_
  rintro stop _ _ ⟨hstop, rfl, -⟩
  refine Takes.pure ⟨start.range, stop.range, ?_, rfl⟩
  rw [← hstart, ← hstop]
  simp

theorem takes_returnForm (hk : k.Sound) (p : Parser) : (returnForm k).Takes p Stmt.IsRead := by
  unfold returnForm
  refine (takes_word "return").bind ?_
  rintro start _ _ ⟨hstart, rfl, -⟩
  refine (takes_unlessAt hk ";" _).bind ?_
  rintro e us _ ⟨hread, hshape⟩
  refine (takes_punctuation ";").bind ?_
  rintro stop _ _ ⟨hstop, rfl, -⟩
  refine Takes.pure ⟨⟨us, start.range, stop.range, ?_, hread, rfl⟩, hshape, by simp⟩
  rw [← hstart, ← hstop]
  simp

/-- An expression as a statement is well shaped and ends with a semicolon. -/
theorem takes_exprStmt (hk : k.Sound) (p : Parser) : (exprStmt k).Takes p Stmt.IsRead := by
  unfold exprStmt
  refine (hk.expr _).bind ?_
  rintro e us _ ⟨hread, hshape⟩
  refine (takes_punctuation ";").bind ?_
  rintro stop _ _ ⟨hstop, rfl, -⟩
  refine Takes.pure ⟨⟨us, stop.range, ?_, hread, rfl⟩, hshape, by simp⟩
  rw [← hstop]
  simp

/-- Every form of statement of the language reads a statement. -/
theorem takes_form (hk : k.Sound) {text : String} {form : Form} (hmem : (text, form) ∈ forms)
    (p : Parser) : (form k).Takes p Stmt.IsRead := by
  have hdecl : ∀ {d : Decl} {ts q}, d.ReadFrom ts ∧ d.WellFormed → (declStmt d).IsRead ts q :=
    fun h => ⟨⟨h.1, rfl⟩, h.2, by simp [declStmt]⟩
  have hword : ∀ {s : Stmt} {ts q}, s.ReadFrom ts → s.WellFormed → s.endsOpen = false →
      s.IsRead ts q :=
    fun hread hwell hopen => ⟨hread, hwell, by simp [hopen]⟩
  simp only [forms, List.mem_cons, Prod.mk.injEq, List.not_mem_nil, or_false] at hmem
  rcases hmem with
    ⟨-, rfl⟩ | ⟨-, rfl⟩ | ⟨-, rfl⟩ | ⟨-, rfl⟩ | ⟨-, rfl⟩ | ⟨-, rfl⟩ | ⟨-, rfl⟩ | ⟨-, rfl⟩ |
    ⟨-, rfl⟩ | ⟨-, rfl⟩ | ⟨-, rfl⟩ | ⟨-, rfl⟩ | ⟨-, rfl⟩ | ⟨-, rfl⟩ | ⟨-, rfl⟩ | ⟨-, rfl⟩
  · exact Takes.map ((takes_variableDecl hk false p).mono fun _ _ _ h => hdecl h)
  · exact Takes.map ((takes_variableDecl hk true p).mono fun _ _ _ h => hdecl h)
  · exact Takes.map ((takes_funcDecl hk p).mono fun _ _ _ h => hdecl h)
  · exact Takes.map ((takes_groupDecl hk .classGroup p).mono fun _ _ _ h => hdecl h)
  · exact Takes.map ((takes_groupDecl hk .namespaceGroup p).mono fun _ _ _ h => hdecl h)
  · exact takes_ifForm hk p
  · exact takes_whileForm hk p
  · exact takes_doForm hk p
  · exact takes_forForm hk p
  · exact takes_switchForm hk p
  · exact takes_caseForm hk p
  · exact Takes.map ((takes_wordThen _ _ p).mono fun _ _ _ h => hword h trivial rfl)
  · exact Takes.map ((takes_wordThen _ _ p).mono fun _ _ _ h => hword h trivial rfl)
  · exact Takes.map ((takes_wordThen _ _ p).mono fun _ _ _ h => hword h trivial rfl)
  · exact takes_returnForm hk p
  · exact Takes.map ((takes_block hk p).mono fun _ _ _ h => hword h.1 h.2 rfl)

/-- Whichever form is chosen at a parser reads a statement. -/
theorem takes_formHere (hk : k.Sound) (p : Parser) :
    (formHere .standard p k).Takes p Stmt.IsRead :=
  formHere_cases (motive := fun form => (form k).Takes p Stmt.IsRead) p
    (takes_exprStmt hk p) fun hmem => takes_form hk hmem p

/-- A statement that is read was read from the tokens taken and is well-formed. -/
theorem takes_statement (n : Nat) : ∀ p, (statement .standard n).Takes p Stmt.IsRead := by
  induction n with
  | zero => exact fun _ => takes_stalled
  | succ n ih =>
    intro p
    rw [statement]
    have hk : Nested.Sound ⟨n, expression standardOperators n, statement .standard n⟩ :=
      ⟨fun q => (takes_expression n q).mono fun _ _ _ h => ⟨h.1, h.2.1⟩, ih⟩
    exact Takes.get (takes_formHere hk p)

end Parse

end Rill
