import Rill.Proofs.Shape

/-!
# What reading an expression takes

Whatever the number of steps allowed, an expression that is read is well-shaped, was read from the
tokens that were taken (`takes_binary`), and was extended as far as its bound allows : no suffix
follows, and no operator that binds at least as tightly as the bound (`Parser.StopsAt`).

`climb` keeps that the expression read so far may stand on the left of the operator that
comes next. The operator that was read last gave the bound of its right operand, so what
follows that operand is looser.
-/

namespace Rill

open Grammar (standardOperators)

/-- Nothing that comes next extends an expression read with the bound `bound`. -/
def Parser.StopsAt (q : Parser) (bound : Nat) : Prop :=
  Parse.suffixHere? standardOperators q = none ∧
    ∀ rule, Parse.ruleHere? standardOperators q = some rule → rule.precedence < bound

namespace Parse

theorem current_of_operator? {p : Parser} {text : String} (h : p.operator? = some text) :
    p.current = some ⟨.punctuation text, p.place⟩ := by
  unfold Parser.operator? at h
  split at h
  · rename_i text' r hc
    obtain rfl : text' = text := by simpa using h
    simp [Parser.place, hc]
  · simp at h

theorem current_of_ruleHere? {p : Parser} {rule : BinaryRule}
    (h : ruleHere? standardOperators p = some rule) :
    p.current = some ⟨.punctuation rule.text, p.place⟩ := by
  obtain ⟨text, htext, hrule⟩ := Option.bind_eq_some_iff.1 h
  rw [← Grammar.between?_eq_some.1 hrule]
  exact current_of_operator? htext

theorem current_of_beforeHere? {p : Parser} {op : UnaryOp}
    (h : beforeHere? standardOperators p = some op) :
    p.current = some ⟨.punctuation op.text, p.place⟩ ∧ op.isPost = false := by
  obtain ⟨text, htext, hop⟩ := Option.bind_eq_some_iff.1 h
  obtain ⟨rfl, hpost⟩ := Grammar.before?_eq_some.1 hop
  exact ⟨current_of_operator? htext, hpost⟩

theorem current_of_suffixHere? {p : Parser} {suffix : Suffix}
    (h : suffixHere? standardOperators p = some suffix) :
    p.current = some ⟨.punctuation suffix.text, p.place⟩ ∧ ∀ op, suffix = .step op → op.isPost := by
  obtain ⟨text, htext, hsuffix⟩ := Option.bind_eq_some_iff.1 h
  obtain ⟨rfl, hpost⟩ := Grammar.after?_eq_some.1 hsuffix
  exact ⟨current_of_operator? htext, hpost⟩

theorem takes_failExpectedExpr {α : Type} {p : Parser} {post : α → List Token → Parser → Prop} :
    (failExpectedExpr : Parse α).Takes p post := by
  intro a q heq
  simp [failExpectedExpr] at heq

/-- Well-shaped expressions with commas in between. -/
theorem argsReadFrom_of_separated {es : List Expr} {ts : List Token}
    (h : Separated (fun e us => e.ReadFrom us ∧ e.WellShaped) es ts) :
    Expr.ArgsReadFrom es ts ∧ Expr.AllWellShaped es := by
  induction h with
  | nil => exact ⟨rfl, trivial⟩
  | one hx => exact ⟨hx.1, hx.2, trivial⟩
  | cons hx _ ih => exact ⟨⟨_, _, _, rfl, hx.1, ih.1⟩, hx.2, ih.2⟩

mutual

/-- An expression is well-shaped and binds as tightly as asked, and nothing that follows extends
it. -/
theorem takes_binary : ∀ (n bound : Nat) (p : Parser),
    (binary standardOperators n bound).Takes p fun e ts q =>
      e.ReadFrom ts ∧ e.WellShaped ∧ e.BindsAt bound ∧ q.StopsAt bound
  | 0, _, _ => takes_stalled
  | n + 1, bound, p => by
    rw [binary]
    refine (takes_operand n p).bind ?_
    rintro lhs ts q ⟨hread, hshape, hrule, hsuffix⟩
    have hbinds := Expr.bindsAt_of_rule?_eq_none hrule
    refine (takes_climb n lhs bound q hshape (hbinds _) hsuffix fun rule _ => hbinds _).mono ?_
    rintro e us r ⟨hread', hshape', hbinds', hstops⟩
    exact ⟨hread' ts hread, hshape', hbinds', hstops⟩

/-- A left operand that binds tightly enough for every rule that can come next is extended
to such an expression. -/
theorem takes_climb : ∀ (n : Nat) (lhs : Expr) (bound : Nat) (p : Parser),
    lhs.WellShaped → lhs.BindsAt bound → suffixHere? standardOperators p = none →
    (∀ rule, ruleHere? standardOperators p = some rule → lhs.BindsAt rule.leftBound) →
    (climb standardOperators n lhs bound).Takes p fun e us q =>
      (∀ ts, lhs.ReadFrom ts → e.ReadFrom (ts ++ us)) ∧ e.WellShaped ∧ e.BindsAt bound ∧
      q.StopsAt bound
  | 0, _, _, _, _, _, _, _ => takes_stalled
  | n + 1, lhs, bound, p, hshape, hbinds, hsuffix, hleft => by
    rw [climb]
    refine Takes.get ?_
    cases hr : ruleHere? standardOperators p with
    | none =>
      exact Takes.pure ⟨fun ts h => by simpa using h, hshape, hbinds, hsuffix, by simp [hr]⟩
    | some rule =>
      have hc := current_of_ruleHere? hr
      have hlhs := hleft rule hr
      by_cases hlt : rule.precedence < bound
      · simp only [hlt, if_true]
        refine Takes.pure ⟨fun ts h => by simpa using h, hshape, hbinds, hsuffix, ?_⟩
        intro rule' hr'
        obtain rfl : rule = rule' := by simpa [hr] using hr'
        exact hlt
      · simp only [hlt, if_false]
        refine (takes_advance hc).bind ?_
        rintro _ _ q ⟨-, rfl, rfl⟩
        cases rule with
        | ternary =>
          refine (takes_binary n 0 _).bind ?_
          rintro a us q₁ ⟨ha, hashape, _, _⟩
          refine (takes_punctuation ":").bind ?_
          rintro colon _ q₂ ⟨hcolon, rfl, -⟩
          refine (takes_binary n ternaryPrecedence _).bind ?_
          rintro b vs q₃ ⟨hb, hbshape, _, hstops⟩
          have hnode : (Expr.ofTernary lhs a b).WellShaped := ⟨hshape, hashape, hbshape, hlhs⟩
          have hroot : (Expr.ofTernary lhs a b).rule? = some .ternary := rfl
          refine (takes_climb n _ bound q₃ hnode
            (Expr.bindsAt_of_rule? hroot (Nat.not_lt.1 hlt)) hstops.1
            fun next hnext => Expr.bindsAt_of_rule? hroot
              (BinaryRule.leftBound_le_precedence (hstops.2 next hnext))).mono ?_
          rintro e ws q₄ ⟨hread, hpost⟩
          refine ⟨fun ts hts => ?_, hpost⟩
          have h := hread _ ⟨ts, us, vs, p.place, colon.range, rfl, hts, ha, hb, rfl⟩
          rw [hcolon]
          simpa [BinaryRule.text] using h
        | binary op =>
          refine (takes_binary n (rightBound op) _).bind ?_
          rintro rhs us q₁ ⟨hrhs, hrshape, hrbinds, hstops⟩
          have hnode : (Expr.ofBinary op lhs rhs).WellShaped := ⟨hshape, hrshape, hlhs, hrbinds⟩
          have hroot : (Expr.ofBinary op lhs rhs).rule? = some (.binary op) := rfl
          refine (takes_climb n _ bound q₁ hnode
            (Expr.bindsAt_of_rule? hroot (Nat.not_lt.1 hlt)) hstops.1
            fun next hnext => Expr.bindsAt_of_rule? hroot
              (BinaryRule.leftBound_le_precedence (hstops.2 next hnext))).mono ?_
          rintro e vs q₂ ⟨hread, hpost⟩
          refine ⟨fun ts hts => ?_, hpost⟩
          have h := hread _ ⟨ts, us, p.place, rfl, hts, hrhs, rfl⟩
          simpa [BinaryRule.text] using h

/-- An operand takes all suffixes that follow it. -/
theorem takes_operand : ∀ (n : Nat) (p : Parser),
    (operand standardOperators n).Takes p fun e ts q =>
      e.ReadFrom ts ∧ e.WellShaped ∧ e.rule? = none ∧ suffixHere? standardOperators q = none
  | 0, _ => takes_stalled
  | n + 1, p => by
    rw [operand]
    refine Takes.get ?_
    cases hb : beforeHere? standardOperators p with
    | some op =>
      obtain ⟨hc, hpost⟩ := current_of_beforeHere? hb
      refine (takes_advance hc).bind ?_
      rintro _ _ q ⟨-, rfl, rfl⟩
      refine (takes_operand n _).bind fun inner ts q ⟨hread, hshape, hrule, hsuffix⟩ =>
        Takes.pure ?_
      refine ⟨?_, ⟨hshape, hrule, by simp [hpost]⟩, rfl, hsuffix⟩
      rw [Expr.ReadFrom, if_neg (by simp [hpost])]
      exact ⟨ts, p.place, by simp, hread, rfl⟩
    | none =>
      refine (takes_primary n p).bind ?_
      rintro inner ts q ⟨hread, hshape, htakes⟩
      refine (takes_suffixes n inner q hshape htakes).mono ?_
      rintro e us r ⟨hread', hshape', htakes', hsuffix⟩
      exact ⟨hread' ts hread, hshape', htakes'.1, hsuffix⟩

/-- Suffixes are added as long as there are some. -/
theorem takes_suffixes : ∀ (n : Nat) (e : Expr) (p : Parser), e.WellShaped → e.TakesSuffix →
    (suffixes standardOperators n e).Takes p fun e' us q =>
      (∀ ts, e.ReadFrom ts → e'.ReadFrom (ts ++ us)) ∧ e'.WellShaped ∧ e'.TakesSuffix ∧
        suffixHere? standardOperators q = none
  | 0, _, _, _, _ => takes_stalled
  | n + 1, e, p, hshape, htakes => by
    rw [suffixes]
    refine Takes.get ?_
    cases hs : suffixHere? standardOperators p with
    | none => exact Takes.pure ⟨fun ts h => by simpa using h, hshape, htakes, hs⟩
    | some suffix =>
      obtain ⟨hc, hpost⟩ := current_of_suffixHere? hs
      refine (takes_advance hc).bind ?_
      rintro _ _ q ⟨-, rfl, rfl⟩
      cases suffix with
      | step op =>
        have hop := hpost op rfl
        have hnode : (Expr.unary op e (e.range.merge p.place)).WellShaped :=
          ⟨hshape, htakes.1, fun _ => htakes.2⟩
        refine (takes_suffixes n _ _ hnode (.of_unary hop)).mono ?_
        rintro e' us q ⟨hread, hpost'⟩
        refine ⟨fun ts hts => ?_, hpost'⟩
        have h := hread (ts ++ [⟨.punctuation op.text, p.place⟩]) (by
          rw [Expr.ReadFrom, if_pos hop]
          exact ⟨ts, _, rfl, hts, rfl⟩)
        simpa [Suffix.text] using h
      | call =>
        refine (takes_separated (R := fun e us => e.ReadFrom us ∧ e.WellShaped)
          (fun p => (takes_binary n 0 p).mono fun e us q h => ⟨h.1, h.2.1⟩) n _).bind ?_
        rintro args us q₁ ⟨hsep, -⟩
        obtain ⟨hargs, hall⟩ := argsReadFrom_of_separated hsep
        refine (takes_punctuation ")").bind ?_
        rintro right _ q₂ ⟨hright, rfl, -⟩
        have hnode : (Expr.call e args (e.range.merge right.range)).WellShaped :=
          ⟨hshape, htakes, hall⟩
        refine (takes_suffixes n _ q₂ hnode ⟨rfl, rfl⟩).mono ?_
        rintro e' vs q₃ ⟨hread, hpost'⟩
        refine ⟨fun ts hts => ?_, hpost'⟩
        have h := hread _ ⟨ts, us, p.place, right.range, rfl, hts, hargs, rfl⟩
        rw [hright]
        simpa [Suffix.text] using h
      | subscript =>
        refine (takes_binary n 0 _).bind ?_
        rintro index us q₁ ⟨hindex, hishape, _, _⟩
        refine (takes_punctuation "]").bind ?_
        rintro right _ q₂ ⟨hright, rfl, -⟩
        have hnode : (Expr.subscript e index (e.range.merge right.range)).WellShaped :=
          ⟨hshape, htakes, hishape⟩
        refine (takes_suffixes n _ q₂ hnode ⟨rfl, rfl⟩).mono ?_
        rintro e' vs q₃ ⟨hread, hpost'⟩
        refine ⟨fun ts hts => ?_, hpost'⟩
        have h := hread _ ⟨ts, us, p.place, right.range, rfl, hts, hindex, rfl⟩
        rw [hright]
        simpa [Suffix.text] using h
      | member =>
        refine takes_identifier.bind ?_
        rintro field _ q₁ ⟨rfl, -⟩
        have hnode : (Expr.member e field (e.range.merge field.range)).WellShaped :=
          ⟨hshape, htakes⟩
        refine (takes_suffixes n _ q₁ hnode ⟨rfl, rfl⟩).mono ?_
        rintro e' vs q₂ ⟨hread, hpost'⟩
        refine ⟨fun ts hts => ?_, hpost'⟩
        have h := hread _ ⟨ts, p.place, rfl, hts, rfl⟩
        simpa [Suffix.text] using h

/-- A primary expression takes suffixes. -/
theorem takes_primary : ∀ (n : Nat) (p : Parser),
    (primary standardOperators n).Takes p fun e ts _ => e.ReadFrom ts ∧ e.WellShaped ∧ e.TakesSuffix
  | 0, _ => takes_stalled
  | n + 1, p => by
    rw [primary]
    refine Takes.get ?_
    cases hc : p.current with
    | none => exact takes_failExpectedExpr
    | some t =>
      simp only
      split
      · exact takes_throw
      · rename_i value hlit
        refine (takes_advance hc).bind ?_
        rintro _ _ q ⟨-, rfl, rfl⟩
        exact Takes.pure ⟨⟨t, by simp, hlit, rfl⟩, trivial, rfl, rfl⟩
      · split
        · refine takes_identifier.bind ?_
          rintro ident _ q ⟨rfl, -⟩
          exact Takes.pure ⟨by simp [Expr.ReadFrom], trivial, rfl, rfl⟩
        · rename_i hlex
          refine (takes_advance hc).bind ?_
          rintro _ _ q ⟨-, rfl, rfl⟩
          refine (takes_binary n 0 _).bind ?_
          rintro inner us q₁ ⟨hinner, hshape, _, _⟩
          refine (takes_punctuation ")").bind ?_
          rintro right _ q₂ ⟨hright, rfl, -⟩
          refine Takes.pure ⟨⟨us, t.range, right.range, ?_, hinner, rfl⟩, hshape, rfl, rfl⟩
          rw [← hlex, ← hright]
          simp
        · exact takes_failExpectedExpr

end

/-- An expression that is read is well-shaped and was read from the tokens taken, and nothing
that follows extends it. -/
theorem takes_expression (n : Nat) (p : Parser) :
    (expression standardOperators n).Takes p fun e ts q =>
      e.ReadFrom ts ∧ e.WellShaped ∧ q.StopsAt 0 :=
  (takes_binary n 0 p).mono fun _ _ _ h => ⟨h.1, h.2.1, h.2.2.2⟩

end Parse

end Rill
