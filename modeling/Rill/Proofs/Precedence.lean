import Rill.Proofs.ExpressionComplete

/-!
# The grammar of expressions

Reading an expression recognises exactly the grammar of precedence : from a sequence of tokens it
gives a tree and leaves a rest if and only if the tree is well-shaped, spells the tokens before
the rest, and nothing at the start of the rest extends it (`Expr.Leads`). There is at most one
such tree and one such rest.
-/

namespace Rill

open Grammar (standardOperators)

/-- The expression is well-shaped and spells the first of the tokens `ts`; the tokens `rest` come
after it and start neither with a suffix nor with an operator between operands. -/
def Expr.Leads (e : Expr) (ts rest : List Token) : Prop :=
  e.WellShaped ∧ (∃ us, ts = us ++ rest ∧ Fits us e.spelling) ∧
    ∀ t, rest.head? = some t → t.suffix? = none ∧ t.rule? = none

theorem map_ok_injective {ts us : List Token} (h : (ts.map .ok : List Item) = us.map .ok) :
    ts = us :=
  List.map_injective_iff.2 (fun _ _ => Except.ok.inj) h

theorem Parser.Reads.unique {p : Parser} {ts us : List Token} (h : p.Reads ts) (h' : p.Reads us) :
    ts = us :=
  map_ok_injective (h.symm.trans h')

theorem stopsBefore_zero_iff {rest : List Token} : StopsBefore 0 rest ↔
    ∀ t, rest.head? = some t → t.suffix? = none ∧ t.rule? = none := by
  refine forall₂_congr fun t _ => and_congr_right fun _ => ?_
  simp [Option.eq_none_iff_forall_ne_some]

theorem Parser.StopsAt.stopsBefore {q : Parser} {bound : Nat} {rest : List Token}
    (h : q.StopsAt bound) (hq : q.Reads rest) : StopsBefore bound rest := by
  intro t ht
  cases rest with
  | nil => simp at ht
  | cons u us =>
    obtain rfl : u = t := by simpa using ht
    simpa [Parser.StopsAt, Parse.suffixHere?_eq, Parse.ruleHere?_eq, hq.current] using h

namespace Parse

/-- What is read leads the tokens. -/
theorem leads_of_expression {n : Nat} {p q : Parser} {ts rest : List Token} {e : Expr}
    (hp : p.Reads ts) (hread : expression standardOperators n p = .ok e q) (hq : q.Reads rest) :
    e.Leads ts rest := by
  obtain ⟨us, hahead, hfrom, hshape, hstop⟩ := takes_expression n p e q hread
  refine ⟨hshape, ⟨us, ?_, e.fits_of_readFrom hfrom⟩, stopsBefore_zero_iff.1 (hstop.stopsBefore hq)⟩
  rw [hp, hq, ← List.map_append] at hahead
  exact map_ok_injective hahead

/-- What leads the tokens is read. -/
theorem expression_of_leads {p : Parser} {ts rest : List Token} {e : Expr} (hp : p.Reads ts)
    (h : e.Leads ts rest) :
    (expression standardOperators p.fuel).Succeeds p fun e' q =>
      e'.bare = e.bare ∧ q.Reads rest := by
  obtain ⟨hshape, ⟨us, rfl, hfits⟩, hstop⟩ := h
  have hfuel := p.length_ahead_le
  rw [hp.length] at hfuel
  exact succeeds_expression hshape hfits hp (by omega) (stopsBefore_zero_iff.2 hstop)

/-- Reading an expression gives exactly the trees that lead the tokens, up to ranges, and there
is at most one of them. -/
theorem expression_iff_leads (p : Parser) (ts : List Token) (hp : p.Reads ts) :
    (∀ (e : Expr) rest,
      (∃ e' q, expression standardOperators p.fuel p = .ok e' q ∧ e'.bare = e.bare ∧
        q.Reads rest) ↔ e.Leads ts rest) ∧
      ∀ (e e' : Expr) rest rest', e.Leads ts rest → e'.Leads ts rest' →
      e.bare = e'.bare ∧ rest = rest' := by
  refine ⟨fun e rest => ⟨?_, fun h => expression_of_leads hp h⟩, ?_⟩
  · rintro ⟨e', q, hread, hbare, hq⟩
    obtain ⟨hshape, ⟨us, hus, hfits⟩, hstop⟩ := leads_of_expression hp hread hq
    exact ⟨(Expr.wellShaped_iff_of_bare hbare).1 hshape,
      ⟨us, hus, Expr.spelling_eq_of_bare hbare ▸ hfits⟩, hstop⟩
  · intro e e' rest rest' h h'
    obtain ⟨a, q, hread, ha, hq⟩ := expression_of_leads hp h
    obtain ⟨a', q', hread', ha', hq'⟩ := expression_of_leads hp h'
    obtain ⟨rfl, rfl⟩ := EStateM.Result.ok.inj (hread.symm.trans hread')
    exact ⟨ha.symm.trans ha', hq.unique hq'⟩

/-- The semicolon after an expression. -/
def semicolon : Token := ⟨.punctuation ";", .unknown⟩

/-- The tokens of `x = -a.b ? 1 : y`. -/
def assignmentTokens : List Token :=
  [.identifier "x", .punctuation "=", .punctuation "-", .identifier "a", .punctuation ".",
    .identifier "b", .punctuation "?", .number "1", .punctuation ":", .identifier "y"].map fun l =>
      ⟨l, .unknown⟩

/-- The tree of these tokens : the condition is the whole assignment, and the sign is
outside the member. -/
def assignmentTree : Expr :=
  .ternary
    (.binary .assign (.name ⟨"x", .unknown⟩)
      (.unary .minus (.member (.name ⟨"a", .unknown⟩) ⟨"b", .unknown⟩ .unknown) .unknown) .unknown)
    (.literal (.int 1) .unknown) (.name ⟨"y", .unknown⟩) .unknown

/-- A parser with these tokens ahead, and a semicolon. -/
def beforeAssignment : Parser where
  current := assignmentTokens.head?
  upcoming := .ofItems Filter.trivia ((assignmentTokens.tail ++ [semicolon]).map .ok)
  previousEnd := .origin
  sourceEnd := .origin
  names := .initial
  scopes := .empty
  scope := .global
  nextDecl := 0

theorem expression_beforeAssignment :
    beforeAssignment.Reads (assignmentTokens ++ [semicolon]) ∧
      ∃ e q, expression standardOperators beforeAssignment.fuel beforeAssignment = .ok e q ∧
        e.bare = assignmentTree.bare ∧ q.Reads [semicolon] := by
  have hp : beforeAssignment.Reads (assignmentTokens ++ [semicolon]) := rfl
  refine ⟨hp, ((expression_iff_leads _ _ hp).1 _ _).2 ⟨?_, ⟨_, rfl, ?_⟩, ?_⟩⟩
  · simp [assignmentTree, Expr.WellShaped, Expr.TakesSuffix, Expr.BindsAt, Expr.rule?,
      Expr.isPrefixed, BinaryRule.leftBound, BinaryRule.precedence, BinaryOp.precedence,
      ternaryPrecedence]
  · repeat' constructor
  · rintro t ⟨⟩
    exact ⟨rfl, rfl⟩

end Parse

end Rill
