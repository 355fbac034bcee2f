import Rill.Proofs.Agreement
import Rill.Proofs.Pieces
import Rill.Proofs.Precedence

/-!
# Expressions read again

An expression stands for itself : the text of its range, taken as a text of its own, is read as this
expression and nothing is left of it, wherever in a script the expression stands
(`Buffer.expressions_reread`).

The text has the tokens from which the expression was built (`Buffer.exists_piece`). They spell it
(`Assembled.fits`), and it is well-shaped as all expressions of a script are
(`Node.WellFormed.holds`), so reading them gives it back, but for its ranges. Two expressions that
are alike in this sense and were built from the same tokens have the same ranges too
(`Assembled.eq_mapRange`).
-/

namespace Rill

/-! ## The words of a node -/

/-- A node as the sequence of its words. -/
def Node.spelling : Node → List TokenPattern
  | .ident i => [.ident i.name]
  | .expr e => e.spelling
  | .param v => v.paramSpelling
  | .stmt s => s.spelling
  | .decl d => d.spelling
  | .members g => .punct "\x7b" :: (Decl.allSpelling g.members ++ [.punct "\x7d"])

namespace Part

/-- A part of a node as the sequence of its words. -/
def spelling : Part → List TokenPattern
  | .word m => [m]
  | .node n => n.spelling

/-- The words of nodes with commas in between, given how lists of what the nodes stand
for are written. -/
theorem spelling_separated {α : Type} {node : α → Node} {words : List α → List TokenPattern}
    (hnil : words [] = []) (hone : ∀ a, words [a] = (node a).spelling)
    (hcons : ∀ a next rest, words (a :: next :: rest) =
      (node a).spelling ++ .punct "," :: words (next :: rest)) :
    ∀ as : List α, (separated (as.map node)).flatMap spelling = words as
  | [] => hnil.symm
  | [a] => by
    rw [hone]
    exact List.append_nil _
  | a :: next :: rest => by
    have ih := spelling_separated hnil hone hcons (next :: rest)
    rw [List.map_cons] at ih
    rw [List.map_cons, List.map_cons, separated, List.flatMap_cons, List.flatMap_cons, ih, hcons]
    rfl

/-- Arguments are spelled with commas in between. -/
theorem spelling_args (es : List Expr) :
    (separated (es.map .expr)).flatMap spelling = Expr.argSpelling es :=
  spelling_separated rfl (fun _ => rfl) (fun _ _ _ => rfl) es

theorem spelling_params (vs : List Variable) :
    (separated (vs.map .param)).flatMap spelling = Variable.paramsSpelling vs :=
  spelling_separated rfl (fun _ => rfl) (fun _ _ _ => rfl) vs

theorem spelling_stmts : ∀ ss : List Stmt, (ss.map Part.stmt).flatMap spelling = Stmt.allSpelling ss
  | [] => rfl
  | s :: rest => by
    rw [List.map_cons, List.flatMap_cons, spelling_stmts rest]
    rfl

theorem spelling_decls : ∀ ds : List Decl,
    (ds.map fun d => Part.node (.decl d)).flatMap spelling = Decl.allSpelling ds
  | [] => rfl
  | d :: rest => by
    rw [List.map_cons, List.flatMap_cons, spelling_decls rest]
    rfl

theorem spelling_ofType (type : Option TypeRef) :
    (ofType type).flatMap spelling = TypeRef.spelling type := by
  rcases type with _ | ⟨type⟩ | ⟨i⟩ <;> rfl

theorem spelling_opt (e : Option Expr) :
    (e.toList.map Part.expr).flatMap spelling = Expr.spelling? e := by
  cases e with
  | none => rfl
  | some e => exact List.append_nil _

/-- The parts of an expression spell it. -/
theorem spelling_ofExpr (e : Expr) : (ofExpr e).flatMap spelling = e.spelling := by
  cases e with
  | unary op operand r => cases h : op.isPost <;>
      simp [ofExpr, spelling, Node.spelling, Expr.spelling, h]
  | call callee args r => simp [ofExpr, spelling, Node.spelling, Expr.spelling, spelling_args]
  | _ => simp [ofExpr, spelling, Node.spelling, Expr.spelling]

/-- The parts of a statement spell it. -/
theorem spelling_ofStmt (s : Stmt) : (ofStmt s).flatMap spelling = s.spelling := by
  cases s with
  | block b =>
    obtain ⟨stmts, scope, range⟩ := b
    simp [ofStmt, spelling, Stmt.spelling, Block.spelling, spelling_stmts]
  | ifElse c a b r =>
    cases b <;> simp [ofStmt, ofElse, spelling, Node.spelling, Stmt.spelling, Stmt.elseSpelling]
  | forLoop init c step body scope r =>
    cases init <;>
      simp [ofStmt, ofFirst, spelling, Node.spelling, Stmt.spelling, Stmt.initSpelling,
        spelling_opt]
  | «return» value r => simp [ofStmt, spelling, Stmt.spelling, spelling_opt]
  | _ => simp [ofStmt, spelling, Node.spelling, Stmt.spelling]

/-- The parts of a declaration spell it. -/
theorem spelling_ofDecl (d : Decl) : (ofDecl d).flatMap spelling = d.spelling := by
  cases d with
  | var v =>
    obtain ⟨id, ident, type, init, constant, scope, range⟩ := v
    cases init <;> simp [ofDecl, ofInit, spelling, Node.spelling, Decl.spelling, Variable.spelling,
      Expr.initSpelling, spelling_ofType]
  | func f =>
    obtain ⟨id, ident, type, params, body, scope, own, range⟩ := f
    simp [ofDecl, spelling, Node.spelling, Decl.spelling, Func.spelling, Stmt.spelling,
      spelling_ofType, spelling_params]
  | group g =>
    obtain ⟨kind, id, ident, members, membersRange, scope, own, range⟩ := g
    simp [ofDecl, spelling, Node.spelling, Decl.spelling, Group.spelling]

end Part

/-- The words of a node are those of its parts. -/
theorem Node.spelling_parts (n : Node) : n.parts.flatMap Part.spelling = n.spelling := by
  cases n with
  | ident i => rfl
  | expr e => exact Part.spelling_ofExpr e
  | param v => simp [parts, spelling, Part.spelling, Variable.paramSpelling, Part.spelling_ofType]
  | stmt s => exact Part.spelling_ofStmt s
  | decl d => exact Part.spelling_ofDecl d
  | members g => simp [parts, spelling, Part.spelling, Part.spelling_decls]

/-- Tokens that are cut into parts spell the parts. -/
theorem Assembled.fits {ps : List Part} {ts : List Token} (h : Assembled ps ts) :
    Fits ts (ps.flatMap Part.spelling) := by
  induction h with
  | nil => exact .nil
  | word fits _ ih => exact .cons fits ih
  | @node n us ps ts _ _ _ hparts ih =>
    rw [n.spelling_parts] at hparts
    exact hparts.append ih

/-! ## Well-formed nodes -/

/-- The expressions of the node are well-shaped, and its statements are well-formed. -/
def Node.WellFormed : Node → Prop
  | .ident _ | .param _ => True
  | .expr e => e.WellShaped
  | .stmt s => s.WellFormed
  | .decl d => d.WellFormed
  | .members g => g.WellFormed

namespace Part

/-- A part that is a node is well-formed. -/
def WellFormed : Part → Prop
  | .word _ => True
  | .node n => n.WellFormed

/-- Among well-formed nodes with commas every part is well formed. -/
theorem wellFormed_separated {ns : List Node} (h : ∀ n ∈ ns, n.WellFormed) :
    ∀ p ∈ separated ns, p.WellFormed := by
  fun_induction separated ns with
  | case1 => simp
  | case2 n => simpa [WellFormed] using h
  | case3 n next rest ih =>
    obtain ⟨hn, hrest⟩ := List.forall_mem_cons.1 h
    exact List.forall_mem_cons.2 ⟨hn, List.forall_mem_cons.2 ⟨trivial, ih hrest⟩⟩

theorem wellFormed_ofType (type : Option TypeRef) : ∀ p ∈ ofType type, p.WellFormed := by
  rcases type with _ | ⟨type⟩ | ⟨i⟩ <;> simp [ofType, WellFormed, Node.WellFormed]

theorem wellFormed_opt {e : Option Expr} (h : ∀ e', e = some e' → e'.WellShaped) :
    ∀ p ∈ e.toList.map Part.expr, p.WellFormed := by
  simpa [WellFormed, Node.WellFormed] using h

/-- The parts of a well-shaped expression are well formed. -/
theorem wellFormed_ofExpr {e : Expr} (h : e.WellShaped) : ∀ p ∈ ofExpr e, p.WellFormed := by
  cases e with
  | unary op operand r =>
    have hoperand := h.1
    cases hop : op.isPost <;> simpa [ofExpr, hop, WellFormed, Node.WellFormed] using hoperand
  | call callee args r =>
    obtain ⟨hcallee, -, hargs⟩ := h
    have hall :=
      wellFormed_separated (List.forall_mem_map.2 hargs.of_mem : ∀ n ∈ args.map Node.expr,
        n.WellFormed)
    simpa [ofExpr, WellFormed, Node.WellFormed, or_imp, forall_and] using ⟨hcallee, hall⟩
  | _ =>
    rw [Expr.WellShaped] at h
    simp [ofExpr, WellFormed, Node.WellFormed, h]

/-- The parts of a well-formed statement are well formed. -/
theorem wellFormed_ofStmt {s : Stmt} (h : s.WellFormed) : ∀ p ∈ ofStmt s, p.WellFormed := by
  cases s with
  | block b =>
    obtain ⟨stmts, scope, range⟩ := b
    rw [Stmt.WellFormed, Block.WellFormed] at h
    simpa [ofStmt, WellFormed, Node.WellFormed, or_imp, forall_and] using h.of_mem
  | ifElse c a b r =>
    obtain ⟨hc, ha, hb, -⟩ := h
    cases b with
    | none => simp [ofStmt, ofElse, WellFormed, Node.WellFormed, hc, ha]
    | some b =>
      rw [Stmt.OptWellFormed] at hb
      simp [ofStmt, ofElse, WellFormed, Node.WellFormed, hc, ha, hb]
  | forLoop init c step body scope r =>
    obtain ⟨hinit, hc, hstep, hbody⟩ := h
    have hfirst : ∀ p ∈ ofFirst init, p.WellFormed := by
      cases init with
      | none => simp [ofFirst, WellFormed]
      | some init =>
        rw [Stmt.OptWellFormed] at hinit
        simpa [ofFirst, WellFormed, Node.WellFormed] using hinit
    simp only [ofStmt, List.forall_mem_cons, List.forall_mem_append]
    exact ⟨trivial, trivial, hfirst, wellFormed_opt hc, trivial, wellFormed_opt hstep, trivial,
      hbody, by simp⟩
  | «return» value r =>
    simp only [ofStmt, List.forall_mem_cons, List.forall_mem_append]
    exact ⟨trivial, wellFormed_opt h, trivial, by simp⟩
  | _ =>
    rw [Stmt.WellFormed] at h
    simp [ofStmt, WellFormed, Node.WellFormed, Stmt.WellFormed, h]

theorem wellFormed_ofDecl {d : Decl} (h : d.WellFormed) : ∀ p ∈ ofDecl d, p.WellFormed := by
  cases d with
  | var v =>
    rw [Decl.WellFormed] at h
    have hinit : ∀ p ∈ ofInit v.init, p.WellFormed := by
      cases hv : v.init with
      | none => simp [ofInit]
      | some e => simpa [ofInit, WellFormed, Node.WellFormed] using h.1 e hv
    simp only [ofDecl, List.forall_mem_cons, List.forall_mem_append]
    exact ⟨trivial, wellFormed_ofType v.type, trivial, hinit, trivial, by simp⟩
  | func f =>
    obtain ⟨id, ident, type, params, body, scope, own, range⟩ := f
    rw [Decl.WellFormed, Func.WellFormed] at h
    have hparams : ∀ n ∈ params.map Node.param, n.WellFormed :=
      List.forall_mem_map.2 fun _ _ => trivial
    simp only [ofDecl, List.forall_mem_cons, List.forall_mem_append]
    refine ⟨trivial, wellFormed_ofType type, trivial, trivial, wellFormed_separated hparams,
      trivial, ?_, by simp⟩
    rw [WellFormed, Node.WellFormed, Stmt.WellFormed]
    exact h.2
  | group g =>
    rw [Decl.WellFormed] at h
    simpa [ofDecl, WellFormed, Node.WellFormed] using h

end Part

namespace Node

variable {n c m : Node}

theorem WellFormed.parts (h : n.WellFormed) : ∀ p ∈ n.parts, p.WellFormed := by
  cases n with
  | ident i => simp [Node.parts, Part.WellFormed]
  | expr e => exact Part.wellFormed_ofExpr h
  | param v =>
    rw [Node.parts, List.forall_mem_append]
    exact ⟨Part.wellFormed_ofType v.type, by simp [Part.WellFormed, Node.WellFormed]⟩
  | stmt s => exact Part.wellFormed_ofStmt h
  | decl d => exact Part.wellFormed_ofDecl h
  | members g =>
    obtain ⟨kind, id, ident, members, membersRange, scope, own, range⟩ := g
    rw [Node.WellFormed, Group.WellFormed] at h
    simpa [Node.parts, Part.WellFormed, Node.WellFormed, or_imp, forall_and] using h.of_mem

/-- A node in a well-formed one is well formed. -/
theorem WellFormed.child (h : n.WellFormed) (hc : c ∈ n.children) : c.WellFormed := by
  obtain ⟨p, hp, hnode⟩ := List.mem_filterMap.1 hc
  cases p with
  | word m => cases hnode
  | node c' =>
    obtain rfl : c' = c := Option.some.inj hnode
    exact h.parts _ hp

/-- What lies in a well-formed node is well-formed. -/
theorem WellFormed.holds (h : n.WellFormed) (hm : n.Holds m) : m.WellFormed := by
  induction hm with
  | self n => exact h
  | child hc _ ih => exact ih (h.child hc)

end Node

/-! ## Nodes up to their ranges -/

namespace Node

/-- An expression or a name with its ranges mapped. An expression holds no other nodes. -/
def mapRange (f : Range → Range) : Node → Node
  | .expr e => .expr (e.mapRange f)
  | .ident i => .ident (i.mapRange f)
  | n => n

/-- An expression or a name without its ranges. -/
def bare (n : Node) : Node := n.mapRange fun _ => .unknown

/-- Nodes that are the same without their ranges are two expressions, two names, or
one other node. -/
theorem cases_of_bare {n n' : Node} (h : n.bare = n'.bare) :
    (∃ e e', n = .expr e ∧ n' = .expr e' ∧ e.bare = e'.bare) ∨
      (∃ i i' : Ident, n = .ident i ∧ n' = .ident i' ∧ i.name = i'.name) ∨
      n = n' ∧ ∀ f, n.mapRange f = n := by
  cases n with
  | expr e =>
    cases n' with
    | expr e' => exact .inl ⟨e, e', rfl, rfl, Node.expr.inj h⟩
    | _ => cases h
  | ident i =>
    cases n' with
    | ident i' =>
      have hident : i.mapRange (fun _ => .unknown) = i'.mapRange fun _ => .unknown :=
        Node.ident.inj h
      exact .inr (.inl ⟨i, i', rfl, rfl, (Ident.mk.inj hident).1⟩)
    | _ => cases h
  | _ => cases n' <;> first | exact .inr (.inr ⟨h, fun _ => rfl⟩) | cases h

end Node

namespace Part

/-- A part with its node mapped. -/
def map (g : Node → Node) : Part → Part
  | .word m => .word m
  | .node n => .node (g n)

/-- Nodes may be mapped before or after commas are put between them. -/
theorem separated_map (g : Node → Node) :
    ∀ ns : List Node, separated (ns.map g) = (separated ns).map (map g)
  | [] => rfl
  | [_] => rfl
  | n :: next :: rest => by
    have ih := separated_map g (next :: rest)
    rw [List.map_cons] at ih
    rw [List.map_cons, List.map_cons, separated, separated, ih]
    rfl

theorem node?_separated : ∀ ns : List Node, (separated ns).filterMap node? = ns
  | [] => rfl
  | [_] => rfl
  | n :: next :: rest => congrArg (n :: ·) (node?_separated (next :: rest))

/-- The commas between nodes do not hide which nodes they are. -/
theorem separated_injective {ns ns' : List Node} (h : separated ns = separated ns') : ns = ns' := by
  rw [← node?_separated ns, h, node?_separated]

/-- The parts of an expression with its ranges mapped. -/
theorem ofExpr_mapRange (f : Range → Range) (e : Expr) :
    ofExpr (e.mapRange f) = (ofExpr e).map (map (Node.mapRange f)) := by
  cases e with
  | unary op operand r =>
    rw [Expr.mapRange, ofExpr, ofExpr]
    split <;> rfl
  | call callee args r =>
    have hargs : (args.map (Expr.mapRange f)).map Node.expr =
        (args.map Node.expr).map (Node.mapRange f) := by
      simp [Node.mapRange]
    rw [Expr.mapRange, ofExpr, ofExpr, Expr.mapRangeAll_eq_map, hargs, separated_map]
    simp [map, Node.mapRange]
  | _ => rfl

end Part

/-- An expression is determined by its range, its parts, and what it is without ranges. -/
theorem Expr.eq_of_parts {e e' : Expr} (hbare : e.bare = e'.bare)
    (hparts : Part.ofExpr e = Part.ofExpr e') (hrange : e.range = e'.range) : e = e' := by
  cases e <;> cases e' <;> try (simp [bare, mapRange] at hbare; done)
  -- what is left are pairs of expressions of one form
  case name.name i i' =>
    have hident : i.mapRange (fun _ => .unknown) = i'.mapRange fun _ => .unknown :=
      Expr.name.inj hbare
    obtain ⟨name, r⟩ := i
    obtain ⟨rfl, -⟩ := Ident.mk.inj hident
    obtain rfl : r = i'.range := hrange
    rfl
  case unary.unary op operand r op' operand' r' =>
    obtain rfl : op = op' := (Expr.unary.inj hbare).1
    obtain rfl : r = r' := hrange
    cases hop : op.isPost <;> simpa [Part.ofExpr, hop] using hparts
  case binary.binary op lhs rhs r op' lhs' rhs' r' =>
    obtain rfl : op = op' := (Expr.binary.inj hbare).1
    obtain rfl : r = r' := hrange
    simpa [Part.ofExpr] using hparts
  case call.call callee args r callee' args' r' =>
    obtain rfl : r = r' := hrange
    obtain ⟨rfl, hargs⟩ : callee = callee' ∧
        Part.separated (args.map .expr) = Part.separated (args'.map .expr) := by
      simpa [Part.ofExpr] using hparts
    rw [List.map_injective_iff.2 (fun _ _ => Node.expr.inj) (Part.separated_injective hargs)]
  all_goals simpa [Part.ofExpr, range, and_assoc] using And.intro hparts hrange

namespace Node

variable {n n' : Node} {f : Range → Range}

/-- Nodes that differ in ranges only are spelled alike. -/
theorem spelling_of_bare (h : n.bare = n'.bare) : n.spelling = n'.spelling := by
  obtain ⟨e, e', rfl, rfl, he⟩ | ⟨i, i', rfl, rfl, hi⟩ | ⟨rfl, -⟩ := cases_of_bare h
  · exact Expr.spelling_eq_of_bare he
  · rw [spelling, spelling, hi]
  · rfl

/-- Nodes that differ in ranges only have parts that do. -/
theorem parts_of_bare (h : n.bare = n'.bare) :
    n.parts.map (Part.map bare) = n'.parts.map (Part.map bare) := by
  obtain ⟨e, e', rfl, rfl, he⟩ | ⟨i, i', rfl, rfl, hi⟩ | ⟨rfl, -⟩ := cases_of_bare h
  · have hparts := congrArg Part.ofExpr he
    rwa [Expr.bare, Expr.bare, Part.ofExpr_mapRange, Part.ofExpr_mapRange] at hparts
  · rw [parts, parts, hi]
  · rfl

/-- Which tokens a range counts does not depend on ranges. -/
theorem counted_of_bare (h : n.bare = n'.bare) : n.counted = n'.counted := by
  obtain ⟨e, e', rfl, rfl, -⟩ | ⟨i, i', rfl, rfl, -⟩ | ⟨rfl, -⟩ := cases_of_bare h <;> rfl

theorem counted_map (n : Node) (g : Token → Token) (ts : List Token) :
    n.counted (ts.map g) = (n.counted ts).map g := by
  unfold counted
  split
  · exact (List.map_tail).symm
  · rfl

/-- A node is determined by its range, its parts, and what it is without ranges. -/
theorem eq_mapRange (h : n.bare = n'.bare) (hparts : n.parts = n'.parts.map (Part.map (mapRange f)))
    (hrange : n.range = f n'.range) : n = n'.mapRange f := by
  obtain ⟨e, e', rfl, rfl, he⟩ | ⟨i, i', rfl, rfl, hi⟩ | ⟨rfl, hother⟩ := cases_of_bare h
  · refine congrArg Node.expr (Expr.eq_of_parts ?_ ?_ ?_)
    · rw [he, Expr.bare_mapRange]
    · rw [Part.ofExpr_mapRange]
      exact hparts
    · rw [Expr.range_mapRange]
      exact hrange
  · obtain ⟨name, r⟩ := i
    obtain rfl : name = i'.name := hi
    obtain rfl : r = f i'.range := hrange
    rfl
  · exact (hother f).symm

end Node

/-! ## The same tokens, counted from elsewhere -/

/-- The range across tokens of a piece is the one across them in the text, moved to the piece. -/
theorem Range.across_onto (base : Location) {ts : List Token} (h : ts ≠ []) :
    Range.across (ts.map (Token.onto base)) = (Range.across ts).onto base := by
  rw [across_eq h, across_eq (by simpa using h)]
  simp [Range.onto, Token.onto]

/-- Parts that are the same without their ranges and are cut from the same tokens, but for where
these are counted from, are the same but for that. -/
theorem Assembled.eq_mapRange (base : Location) {ps ps' : List Part} {us ts : List Token}
    (h : Assembled ps us) (h' : Assembled ps' ts) (htokens : us = ts.map (Token.onto base))
    (hbare : ps.map (Part.map Node.bare) = ps'.map (Part.map Node.bare)) :
    ps = ps'.map (Part.map (Node.mapRange (Range.onto base))) := by
  induction h generalizing ps' ts with
  | nil => simpa using hbare
  | @word m t ps us fits rest ih =>
    cases h' with
    | nil => cases hbare
    | node => cases (List.cons.inj hbare).1
    | word fits' rest' =>
      obtain ⟨hword, hrest⟩ := List.cons.inj hbare
      obtain rfl := Part.word.inj hword
      rw [List.map_cons, ← ih rest' (List.cons.inj htokens).2 hrest]
      rfl
  | @node n us ps vs parts range rest ihparts ih =>
    cases h' with
    | nil => cases hbare
    | word => cases (List.cons.inj hbare).1
    | @node n' us' ps' vs' parts' range' rest' =>
      obtain ⟨hnode, hrest⟩ := List.cons.inj hbare
      have hsame : n.bare = n'.bare := Part.node.inj hnode
      -- both nodes take as many tokens as they have words
      have hlength : us.length = (us'.map (Token.onto base)).length := by
        have hwords := parts.fits.length_eq
        have hwords' := parts'.fits.length_eq
        rw [Node.spelling_parts] at hwords hwords'
        rw [hwords, Node.spelling_of_bare hsame, List.length_map, hwords']
      rw [List.map_append] at htokens
      obtain ⟨rfl, rfl⟩ := List.append_inj htokens hlength
      have hrange : n.range = n'.range.onto base := by
        rw [range, range', Node.counted_of_bare hsame, Node.counted_map,
          Range.across_onto base (Node.counted_ne_nil parts')]
      have heq := Node.eq_mapRange hsame (ihparts parts' rfl (Node.parts_of_bare hsame)) hrange
      rw [List.map_cons, ← ih rest' rfl hrest, heq]
      rfl

/-- What a token stands for does not depend on where it is counted from. -/
theorem TokenPattern.Fits.of_onto {base : Location} {m : TokenPattern} {t : Token}
    (h : m.Fits (t.onto base)) :
    m.Fits t := by
  cases m with
  | word lexeme => exact h
  | literal value =>
    obtain ⟨v, hv, hv'⟩ | ⟨text, hv, -⟩ :=
      Parse.literalOf?_cases t.lexeme (t.range.onto base) t.range
    · exact hv'.trans (hv.symm.trans h)
    · cases hv.symm.trans h

/-- Whether tokens fit words does not depend on where they stand. -/
theorem Fits.of_onto {base : Location} {ts : List Token} {ms : List TokenPattern}
    (h : Fits (ts.map (Token.onto base)) ms) : Fits ts ms :=
  (List.forall₂_map_left_iff.1 h).imp fun _ _ => TokenPattern.Fits.of_onto

/-! ## Texts of expressions -/

namespace Buffer

open Grammar (standardOperators)

variable {b : Buffer}

/-- An expression that was built from tokens of a text is read again from the text of its range. -/
theorem reread_of_builtFrom {ts us : List Token} {e : Expr} (hts : b.tokens = .ok ts)
    (hus : us <:+: ts) (hbuilt : (Node.expr e).BuiltFrom us) (hshape : e.WellShaped) :
    ∃ text, b.slice? e.range = some text ∧ ∀ name, ∃ p e' q, Parser.start ⟨name, text⟩ = .ok p ∧
      Parse.expression standardOperators p.fuel p = .ok e' q ∧ q.isEmpty ∧
      (∃ us, tokens ⟨name, text⟩ = .ok us ∧ e'.ReadFrom us) ∧
      e'.mapRange (Range.onto e.range.start) = e := by
  have hrange : e.range = Range.across us := hbuilt.2
  obtain ⟨text, us', hslice, htokens, hus'⟩ := exists_piece hts hus hbuilt.ne_nil
  rw [← hrange] at hslice hus'
  refine ⟨text, hslice, fun name => ?_⟩
  obtain ⟨p, hstart, hp⟩ := Parser.start_of_tokens (htokens name)
  -- the tokens spell the expression, so this is what is read
  have hfits : Fits us' e.spelling := by
    have hwords := hbuilt.1.fits
    rw [Node.spelling_parts, hus'] at hwords
    exact hwords.of_onto
  have hleads : e.Leads us' [] := ⟨hshape, ⟨us', (List.append_nil us').symm, hfits⟩, by simp⟩
  obtain ⟨e', q, hread, hbare, hq⟩ := Parse.expression_of_leads hp hleads
  -- and it has the ranges that the tokens give it
  obtain ⟨vs, hahead, hfrom, -⟩ := Parse.takes_expression _ p e' q hread
  obtain rfl : us' = vs := by
    rw [hp, hq, ← List.map_append, List.append_nil] at hahead
    exact map_ok_injective hahead
  have hbuilt' := e'.builtFrom hfrom (inOrder_of_tokens (htokens name))
  have heq := (Assembled.single hbuilt).eq_mapRange e.range.start (.single hbuilt') hus'
    (congrArg (fun e => [Part.expr e]) hbare.symm)
  exact ⟨p, e', q, hstart, hread, by simp [Parser.isEmpty, hq.current_nil],
    ⟨us', htokens name, hfrom⟩, (Node.expr.inj (Part.node.inj (List.cons.inj heq).1)).symm⟩

/-- Every expression of a script stands for itself : the text of its range is read as this
expression, its ranges counted from where it starts, and nothing of the text is left. -/
theorem expressions_reread (b : Buffer) (s : Script) (h : b.script = .ok s) (stmt : Stmt)
    (hstmt : stmt ∈ s.stmts) (e : Expr) (he : (Node.stmt stmt).Holds (.expr e)) :
    ∃ text, b.slice? e.range = some text ∧ ∀ name, ∃ p e' q, Parser.start ⟨name, text⟩ = .ok p ∧
      Parse.expression standardOperators p.fuel p = .ok e' q ∧ q.isEmpty ∧
      (∃ us, tokens ⟨name, text⟩ = .ok us ∧ e'.ReadFrom us) ∧
      e'.mapRange (Range.onto e.range.start) = e := by
  obtain ⟨ts, hts, hread, hwell⟩ := allReadFrom_of_script h
  have hassembled := Stmt.assembled_all s.stmts hread (inOrder_of_tokens hts)
  obtain ⟨us, hus, hbuilt⟩ := hassembled.exists_builtFrom (n := .stmt stmt)
    (List.mem_filterMap.2 ⟨.stmt stmt, List.mem_map_of_mem hstmt, rfl⟩)
  obtain ⟨vs, hvs, hbuilt⟩ := hbuilt.exists_of_holds he
  have hshape : (Node.stmt stmt).WellFormed := hwell.of_mem stmt hstmt
  exact reread_of_builtFrom hts (hvs.trans hus) hbuilt (hshape.holds he)

end Buffer

/-- The expression that is reached from a node by taking the child with the first number, then the
child of that with the second, and so on. -/
def Node.exprAt? : Node → List Nat → Option Expr
  | .expr e, [] => some e
  | _, [] => none
  | n, i :: path => n.children[i]?.bind (exprAt? · path)

/-- An expression that is reached along a path lies in the node. -/
theorem Node.holds_of_exprAt? {e : Expr} : ∀ {path : List Nat} {n : Node}, n.exprAt? path = some e →
    n.Holds (.expr e)
  | [], n, h => by
    cases n with
    | expr e' =>
      obtain rfl : e' = e := Option.some.inj h
      exact .self _
    | _ => cases h
  | i :: path, n, h => by
    have h' : n.children[i]?.bind (exprAt? · path) = some e := by
      cases n <;> exact h
    obtain ⟨c, hc, he⟩ := Option.bind_eq_some_iff.1 h'
    exact .child (List.mem_of_getElem? hc) (holds_of_exprAt? he)

/-- A script with an expression over two lines, right before a slash. -/
def Buffer.twoLines : Buffer :=
  anonymous "func f() \x7b\n  return 3 - (a /* b */\r\n  + g(1, 'c')).x/2;\n\x7d"

/-- The expression before the slash, read from its own two lines. -/
theorem Buffer.expressions_reread_lines : ∃ s stmt e, twoLines.script = .ok s ∧ stmt ∈ s.stmts ∧
    (Node.stmt stmt).Holds (.expr e) ∧ e.range = ⟨⟨2, 14⟩, ⟨3, 17⟩⟩ ∧
    ∃ p e' q, Parser.start (anonymous "(a /* b */\r\n  + g(1, 'c')).x") = .ok p ∧
      Parse.expression Grammar.standardOperators p.fuel p = .ok e' q ∧ q.isEmpty ∧
      e'.mapRange (Range.onto ⟨2, 14⟩) = e := by
  have hfound : ((twoLines.script.toOption.bind fun s => s.stmts.head?.bind fun stmt =>
      (Node.stmt stmt).exprAt? [0, 1, 0, 0, 1, 0]).map fun e =>
        (e.range, twoLines.slice? e.range)) =
      some (⟨⟨2, 14⟩, ⟨3, 17⟩⟩, some "(a /* b */\r\n  + g(1, 'c')).x") := by decide +kernel
  obtain ⟨e, he, hplace⟩ := Option.map_eq_some_iff.1 hfound
  obtain ⟨hrange, hslice⟩ := Prod.mk.inj hplace
  obtain ⟨s, hs, he⟩ := Option.bind_eq_some_iff.1 he
  obtain ⟨stmt, hstmt, he⟩ := Option.bind_eq_some_iff.1 he
  have hscript : twoLines.script = .ok s := by
    cases hread : twoLines.script with
    | error e => simp [hread, Except.toOption] at hs
    | ok s' => simpa [hread, Except.toOption] using hs
  have hmem := List.mem_of_mem_head? hstmt
  have hholds := Node.holds_of_exprAt? he
  obtain ⟨text, htext, hread⟩ := expressions_reread twoLines s hscript stmt hmem e hholds
  obtain rfl : _ = text := Option.some.inj (hslice.symm.trans htext)
  obtain ⟨p, e', q, hstart, hexpr, hend, -, heq⟩ := hread "<input>"
  rw [hrange] at heq
  exact ⟨s, stmt, e, hscript, hmem, hholds, hrange, p, e', q, hstart, hexpr, hend, heq⟩

end Rill
