import Rill.Proofs.Places
import Rill.Proofs.Script

/-!
# The extents of nodes

A node of a tree is its own words and the nodes inside it, in the order in which they are written
(`Node.parts`). `Assembled ps ts` cuts tokens accordingly : a word takes one token, a node all
tokens from which it was built, and the range of the node is the one across them. A parameter is the
exception : the word of a builtin type is not counted (`Node.counted`).

Trees that are read are assembled from the tokens of their text (`Stmt.builtFrom`,
`Decl.builtFrom`). As tokens stand one after the other, nodes lie inside the nodes that hold them,
side by side (`Node.BuiltFrom.exact`).
-/

namespace Rill

/-! ## Nodes -/

/-- What has a range in a tree. The members of a class or a namespace are one node, with
their braces. -/
inductive Node where
  | ident (ident : Ident)
  | expr (expr : Expr)
  | param (param : Variable)
  | stmt (stmt : Stmt)
  | decl (decl : Decl)
  | members (group : Group)

/-- What a node is written with : a word of its own, or a node inside it. -/
inductive Part where
  | word (pattern : TokenPattern)
  | node (node : Node)

namespace Part

/-- A piece of punctuation. -/
abbrev punct (text : String) : Part := .word (.punct text)

/-- A word of the grammar. -/
abbrev ident (name : String) : Part := .word (.ident name)

/-- An expression. -/
abbrev expr (e : Expr) : Part := .node (.expr e)

/-- A statement. -/
abbrev stmt (s : Stmt) : Part := .node (.stmt s)

/-- The node that a part is. -/
def node? : Part → Option Node
  | .word _ => none
  | .node n => some n

/-- Nodes with commas in between. -/
def separated : List Node → List Part
  | [] => []
  | [n] => [.node n]
  | n :: next :: rest => .node n :: .punct "," :: separated (next :: rest)

/-- A type annotation. -/
def ofType : Option TypeRef → List Part
  | none => []
  | some (.builtin type) => [.word (.word (.keyword (.type type)))]
  | some (.named i) => [.node (.ident i)]

/-- An initial value and the mark before it. -/
def ofInit : Option Expr → List Part
  | none => []
  | some e => [.punct "=", .expr e]

/-- The second branch of an `if`. -/
def ofElse : Option Stmt → List Part
  | none => []
  | some s => [.ident "else", .stmt s]

/-- The first part of a `for` loop. -/
def ofFirst : Option Stmt → List Part
  | none => [.punct ";"]
  | some s => [.stmt s]

/-- The parts of an expression. -/
def ofExpr : Expr → List Part
  | .literal value _ => [.word (.literal value)]
  | .name i => [.ident i.name]
  | .paren inner _ => [.punct "(", .expr inner, .punct ")"]
  | .unary op operand _ =>
    if op.isPost then [.expr operand, .punct op.text] else [.punct op.text, .expr operand]
  | .binary op lhs rhs _ => [.expr lhs, .punct op.text, .expr rhs]
  | .ternary c a b _ => [.expr c, .punct "?", .expr a, .punct ":", .expr b]
  | .member object field _ => [.expr object, .punct ".", .node (.ident field)]
  | .subscript object index _ => [.expr object, .punct "[", .expr index, .punct "]"]
  | .call callee args _ =>
    .expr callee :: .punct "(" :: (separated (args.map .expr) ++ [.punct ")"])

/-- The parts of a statement. -/
def ofStmt : Stmt → List Part
  | .expr e _ => [.expr e, .punct ";"]
  | .decl d _ => [.node (.decl d)]
  | .block b => .punct "\x7b" :: (b.stmts.map .stmt ++ [.punct "\x7d"])
  | .ifElse c a b _ => .ident "if" :: .punct "(" :: .expr c :: .punct ")" :: .stmt a :: ofElse b
  | .whileDo c body _ => [.ident "while", .punct "(", .expr c, .punct ")", .stmt body]
  | .doWhile body c _ =>
    [.ident "do", .stmt body, .ident "while", .punct "(", .expr c, .punct ")", .punct ";"]
  | .forLoop init c step body _ _ => .ident "for" :: .punct "(" :: (ofFirst init ++
    (c.toList.map .expr ++ .punct ";" :: (step.toList.map .expr ++ [.punct ")", .stmt body])))
  | .switch subject body _ =>
    [.ident "switch", .punct "(", .expr subject, .punct ")", .stmt (.block body)]
  | .caseLabel value _ => [.ident "case", .expr value, .punct ":"]
  | .defaultLabel _ => [.ident "default", .punct ":"]
  | .continue _ => [.ident "continue", .punct ";"]
  | .break _ => [.ident "break", .punct ";"]
  | .return value _ => .ident "return" :: (value.toList.map .expr ++ [.punct ";"])

/-- The parts of a declaration. -/
def ofDecl : Decl → List Part
  | .var v => .ident (Variable.word v.constant) :: (ofType v.type ++ .node (.ident v.ident) ::
    (ofInit v.init ++ [.punct ";"]))
  | .func f => .ident "func" :: (ofType f.type ++ .node (.ident f.ident) :: .punct "(" ::
    (separated (f.params.map .param) ++ [.punct ")", .stmt (.block f.body)]))
  | .group g => [.ident (Parse.groupWord g.kind), .node (.ident g.ident), .node (.members g)]

end Part

namespace Node

/-- The range of a node. -/
def range : Node → Range
  | .ident i => i.range
  | .expr e => e.range
  | .param v => v.range
  | .stmt s => s.range
  | .decl d => d.range
  | .members g => g.membersRange

/-- What a node is written with, in order. -/
def parts : Node → List Part
  | .ident i => [.ident i.name]
  | .expr e => Part.ofExpr e
  | .param v => Part.ofType v.type ++ [.node (.ident v.ident)]
  | .stmt s => Part.ofStmt s
  | .decl d => Part.ofDecl d
  | .members g => .punct "\x7b" :: (g.members.map (fun d => .node (.decl d)) ++ [.punct "\x7d"])

/-- The nodes right inside a node, in order. -/
def children (n : Node) : List Node := n.parts.filterMap Part.node?

/-- The tokens of a node that its range counts : all, but for the word of a builtin type of a
parameter. -/
def counted : Node → List Token → List Token
  | .param ⟨_, _, some (.builtin _), _, _, _, _⟩, ts => ts.tail
  | _, ts => ts

/-- A node lies in another, at any depth. -/
inductive Holds : Node → Node → Prop
  | self (n : Node) : Holds n n
  | child {n c m : Node} (hc : c ∈ n.children) (h : Holds c m) : Holds n m

end Node

/-- Tokens cut into the parts of a node : one for each word and, for each node, those
from which it was built. -/
inductive Assembled : List Part → List Token → Prop
  | nil : Assembled [] []
  | word {m : TokenPattern} {t : Token} {ps : List Part} {ts : List Token} (fits : m.Fits t)
      (rest : Assembled ps ts) : Assembled (.word m :: ps) (t :: ts)
  | node {n : Node} {us : List Token} {ps : List Part} {ts : List Token}
      (parts : Assembled n.parts us) (range : n.range = Range.across (n.counted us))
      (rest : Assembled ps ts) :
      Assembled (.node n :: ps) (us ++ ts)

/-- The node was built from the tokens : they are cut into its parts, and its range is the one
across those that count. -/
def Node.BuiltFrom (n : Node) (ts : List Token) : Prop :=
  Assembled n.parts ts ∧ n.range = Range.across (n.counted ts)

namespace Assembled

variable {ps qs : List Part} {ts us : List Token} {n : Node}

/-- Parts in sequence are assembled from tokens in sequence. -/
theorem append (h : Assembled ps ts) (h' : Assembled qs us) : Assembled (ps ++ qs) (ts ++ us) := by
  induction h with
  | nil => exact h'
  | word fits _ ih => exact .word fits ih
  | node parts range _ _ ih =>
    rw [List.append_assoc]
    exact .node parts range ih

/-- A node and other parts are assembled from its tokens and theirs. -/
theorem cons (h : n.BuiltFrom us) (h' : Assembled ps ts) : Assembled (.node n :: ps) (us ++ ts) :=
  .node h.1 h.2 h'

theorem single (h : n.BuiltFrom us) : Assembled [.node n] us := by
  simpa using cons h .nil

end Assembled

namespace Node

/-- The range of an expression counts all of its tokens. -/
@[simp]
theorem counted_expr (e : Expr) (ts : List Token) : (expr e).counted ts = ts := rfl

@[simp]
theorem counted_stmt (s : Stmt) (ts : List Token) : (stmt s).counted ts = ts := rfl

@[simp]
theorem counted_decl (d : Decl) (ts : List Token) : (decl d).counted ts = ts := rfl

/-- Every node is written with something. -/
theorem parts_ne_nil (n : Node) : n.parts ≠ [] := by
  cases n with
  | ident | members => simp [parts]
  | param => simp [parts]
  | expr e =>
    cases e with
    | unary op => cases h : op.isPost <;> simp [parts, Part.ofExpr, h]
    | _ => simp [parts, Part.ofExpr]
  | stmt s => cases s <;> simp [parts, Part.ofStmt]
  | decl d => cases d <;> simp [parts, Part.ofDecl]

end Node

/-- Parts are assembled from at least one token. -/
theorem Assembled.ne_nil {ps : List Part} {ts : List Token} (h : Assembled ps ts) (hps : ps ≠ []) :
    ts ≠ [] := by
  induction h with
  | nil => exact absurd rfl hps
  | word => simp
  | @node n us _ _ _ _ _ ih _ => simp [ih n.parts_ne_nil]

theorem Node.BuiltFrom.ne_nil {n : Node} {ts : List Token} (h : n.BuiltFrom ts) : ts ≠ [] :=
  h.1.ne_nil n.parts_ne_nil

/-! ## Trees that were read -/

/-- A name is built from its token. -/
theorem builtFrom_ident (i : Ident) : (Node.ident i).BuiltFrom [⟨.identifier i.name, i.range⟩] :=
  ⟨.word rfl .nil, rfl⟩

/-- The range across a piece and a later one, with all that stands in between. -/
theorem across_of_merge {a m b ts : List Token} {r r' : Range} (h : InOrder ts)
    (hts : ts = a ++ (m ++ b)) (ha : a ≠ []) (hb : b ≠ []) (hr : r = Range.across a)
    (hr' : r' = Range.across b) : r.merge r' = Range.across ts := by
  subst hts hr hr'
  exact Range.merge_across h ha hb

mutual

/-- An expression that was read from tokens in their order is built from them. The induction follows
the way in which it was read, so the range is merged from those of its parts. -/
theorem Expr.builtFrom : ∀ (e : Expr) {ts : List Token}, e.ReadFrom ts → InOrder ts →
    (Node.expr e).BuiltFrom ts
  | .literal value range, ts, h, _ => by
    obtain ⟨t, rfl, ht, rfl⟩ := h
    exact ⟨.word ht .nil, rfl⟩
  | .name ident, ts, h, _ => by
    obtain rfl := h
    exact ⟨.word rfl .nil, rfl⟩
  | .paren inner range, ts, h, hord => by
    obtain ⟨us, l, r, rfl, hus, rfl⟩ := h
    have hinner := inner.builtFrom hus hord.tail.left
    exact ⟨.word rfl (.cons hinner (.word rfl .nil)),
      across_of_merge hord (a := [_]) (m := us) rfl (by simp) (by simp) rfl rfl⟩
  | .unary op operand range, ts, h, hord => by
    by_cases hpost : op.isPost
    · rw [Expr.ReadFrom, if_pos hpost] at h
      obtain ⟨us, r, rfl, hus, rfl⟩ := h
      have hoperand := operand.builtFrom hus hord.left
      refine ⟨?_, across_of_merge hord (m := []) rfl hoperand.ne_nil (by simp) hoperand.2 rfl⟩
      rw [Node.parts, Part.ofExpr, if_pos hpost]
      exact .cons hoperand (.word rfl .nil)
    · rw [Expr.ReadFrom, if_neg hpost] at h
      obtain ⟨us, l, rfl, hus, rfl⟩ := h
      have hoperand := operand.builtFrom hus hord.tail
      refine ⟨?_,
        across_of_merge hord (a := [_]) (m := []) rfl (by simp) hoperand.ne_nil rfl hoperand.2⟩
      rw [Node.parts, Part.ofExpr, if_neg hpost]
      exact .word rfl (.single hoperand)
  | .binary op lhs rhs range, ts, h, hord => by
    obtain ⟨us, vs, r, rfl, hus, hvs, rfl⟩ := h
    have hlhs := lhs.builtFrom hus hord.left
    have hrhs := rhs.builtFrom hvs hord.right.tail
    exact ⟨.cons hlhs (.word rfl (.single hrhs)),
      across_of_merge hord (m := [_]) rfl hlhs.ne_nil hrhs.ne_nil hlhs.2 hrhs.2⟩
  | .ternary c a b range, ts, h, hord => by
    obtain ⟨us, vs, ws, r, r', rfl, hus, hvs, hws, rfl⟩ := h
    have hc := c.builtFrom hus hord.left
    have ha := a.builtFrom hvs hord.right.tail.left
    have hb := b.builtFrom hws hord.right.tail.right.tail
    exact ⟨.cons hc (.word rfl (.cons ha (.word rfl (.single hb)))),
      across_of_merge hord
        (m := ⟨.punctuation "?", r⟩ :: (vs ++ [⟨.punctuation ":", r'⟩])) (by simp)
        hc.ne_nil hb.ne_nil hc.2 hb.2⟩
  | .member object field range, ts, h, hord => by
    obtain ⟨us, r, rfl, hus, rfl⟩ := h
    have hobject := object.builtFrom hus hord.left
    exact ⟨.cons hobject (.word rfl (.single (builtFrom_ident field))),
      across_of_merge hord (m := [_]) (b := [_]) rfl hobject.ne_nil (by simp) hobject.2 rfl⟩
  | .subscript object index range, ts, h, hord => by
    obtain ⟨us, vs, l, r, rfl, hus, hvs, rfl⟩ := h
    have hobject := object.builtFrom hus hord.left
    have hindex := index.builtFrom hvs hord.right.tail.left
    exact ⟨.cons hobject (.word rfl (.cons hindex (.word rfl .nil))),
      across_of_merge hord (m := _ :: vs) rfl hobject.ne_nil (by simp) hobject.2 rfl⟩
  | .call callee args range, ts, h, hord => by
    obtain ⟨us, vs, l, r, rfl, hus, hvs, rfl⟩ := h
    have hcallee := callee.builtFrom hus hord.left
    have hargs := Expr.assembled_args args hvs hord.right.tail.left
    exact ⟨.cons hcallee (.word rfl (hargs.append (.word rfl .nil))),
      across_of_merge hord (m := _ :: vs) rfl hcallee.ne_nil (by simp) hcallee.2 rfl⟩

/-- Arguments are assembled from tokens with commas in between. -/
theorem Expr.assembled_args :
    ∀ (es : List Expr) {ts : List Token}, Expr.ArgsReadFrom es ts → InOrder ts →
    Assembled (Part.separated (es.map .expr)) ts
  | [], ts, h, _ => by
    obtain rfl := h
    exact .nil
  | [e], ts, h, hord => .single (e.builtFrom h hord)
  | e :: next :: rest, ts, h, hord => by
    obtain ⟨us, vs, r, rfl, hus, hvs⟩ := h
    exact .cons (e.builtFrom hus hord.left)
      (.word rfl (Expr.assembled_args (next :: rest) hvs hord.right.tail))

end

section

variable {ts : List Token}

theorem Expr.assembled_opt {e : Option Expr} (h : Expr.ReadFrom? e ts) (hord : InOrder ts) :
    Assembled (e.toList.map .expr) ts := by
  cases e with
  | none =>
    obtain rfl := h
    exact .nil
  | some e => exact .single (e.builtFrom h hord)

theorem Expr.assembled_init {e : Option Expr} (h : Expr.InitReadFrom e ts) (hord : InOrder ts) :
    Assembled (Part.ofInit e) ts := by
  cases e with
  | none =>
    obtain rfl := h
    exact .nil
  | some e =>
    obtain ⟨us, r, rfl, hus⟩ := h
    exact .word rfl (.single (e.builtFrom hus hord.tail))

/-- A type annotation is assembled from its token. -/
theorem TypeRef.assembled : ∀ {type : Option TypeRef}, TypeRef.ReadFrom type ts →
    Assembled (Part.ofType type) ts
  | none, h => by
    obtain rfl := h
    exact .nil
  | some (.builtin _), h => by
    obtain ⟨r, rfl⟩ := h
    exact .word rfl .nil
  | some (.named i), h => by
    obtain rfl := h
    exact .single (builtFrom_ident i)

/-- A variable is built from its tokens, the last of which is the semicolon. -/
theorem Variable.builtFrom {v : Variable} (h : v.ReadFrom ts) (hord : InOrder ts) :
    (Node.decl (.var v)).BuiltFrom ts := by
  obtain ⟨us, vs, l, r, rfl, hus, hvs, hrange⟩ := h
  have hinit := Expr.assembled_init hvs hord.tail.right.tail.left
  refine ⟨.word rfl ((TypeRef.assembled hus).append
    (.cons (builtFrom_ident v.ident) (hinit.append (.word rfl .nil)))), ?_⟩
  exact hrange.trans (across_of_merge hord (a := [⟨.identifier (word v.constant), l⟩])
    (m := us ++ ⟨.identifier v.ident.name, v.ident.range⟩ :: vs)
    (b := [⟨.punctuation ";", r⟩]) (by simp)
    (by simp) (by simp) rfl rfl)

/-- A parameter is built from its tokens, though its range does not count the word of a builtin
type. -/
theorem Variable.builtFrom_param {v : Variable} (h : v.ParamReadFrom ts) (hord : InOrder ts) :
    (Node.param v).BuiltFrom ts := by
  obtain ⟨us, rfl, hus, -, -, hrange⟩ := h
  refine ⟨(TypeRef.assembled hus).append (.single (builtFrom_ident v.ident)), hrange.trans ?_⟩
  obtain ⟨id, ident, type, init, constant, scope, range⟩ := v
  match type, hus with
  | none, hus =>
    obtain rfl := hus
    rfl
  | some (.builtin type), hus =>
    obtain ⟨r, rfl⟩ := hus
    rfl
  | some (.named i), hus =>
    obtain rfl := hus
    exact across_of_merge hord (a := [_]) (m := []) rfl (by simp) (by simp) rfl rfl

theorem Variable.assembled_params {params : List Variable}
    (h : Parse.Separated Variable.ParamReadFrom params ts) (hord : InOrder ts) :
    Assembled (Part.separated (params.map .param)) ts := by
  induction h with
  | nil => exact .nil
  | one hx => exact .single (Variable.builtFrom_param hx hord)
  | cons hx _ ih =>
    exact .cons (Variable.builtFrom_param hx hord.left) (.word rfl (ih hord.right.tail))

end

mutual

/-- A statement that was read from tokens in their order is built from them. -/
theorem Stmt.builtFrom : ∀ (s : Stmt) {ts : List Token}, s.ReadFrom ts → InOrder ts →
    (Node.stmt s).BuiltFrom ts
  | .expr e range, ts, h, hord => by
    obtain ⟨us, r, rfl, hus, rfl⟩ := h
    have he := e.builtFrom hus hord.left
    exact ⟨.cons he (.word rfl .nil),
      across_of_merge hord (m := []) rfl he.ne_nil (by simp) he.2 rfl⟩
  | .decl d range, ts, h, hord => by
    obtain ⟨hd, rfl⟩ := h
    have hdecl := d.builtFrom hd hord
    refine ⟨.single hdecl, ?_⟩
    cases d <;> exact hdecl.2
  | .block b, ts, h, hord => b.builtFrom h hord
  | .ifElse c a b range, ts, h, hord => by
    obtain ⟨us, vs, ws, s, l, r, rfl, hus, hvs, hws⟩ := h
    have hinner := hord.tail.tail
    have hc := c.builtFrom hus hinner.left
    have ha := a.builtFrom hvs hinner.right.tail.left
    have hfront := across_of_merge (a := [⟨.identifier "if", s⟩]) (b := vs)
      (m := ⟨.punctuation "(", l⟩ :: (us ++ [⟨.punctuation ")", r⟩])) (hord.sublist (by simp))
      rfl (by simp)
      ha.ne_nil rfl ha.2
    obtain ⟨helse, hrange⟩ := Stmt.assembled_else b hws hfront (by simp) (by simpa using hord)
    refine ⟨.word rfl (.word rfl (.cons hc (.word rfl (.cons ha helse)))), ?_⟩
    simpa [Node.range, Stmt.range] using hrange
  | .whileDo c body range, ts, h, hord => by
    obtain ⟨us, vs, s, l, r, rfl, hus, hvs, rfl⟩ := h
    have hc := c.builtFrom hus hord.tail.tail.left
    have hbody := body.builtFrom hvs hord.tail.tail.right.tail
    exact ⟨.word rfl (.word rfl (.cons hc (.word rfl (.single hbody)))),
      across_of_merge hord (a := [⟨.identifier "while", s⟩]) (b := vs)
        (m := ⟨.punctuation "(", l⟩ :: (us ++ [⟨.punctuation ")", r⟩])) (by simp) (by simp)
        hbody.ne_nil rfl
        hbody.2⟩
  | .doWhile body c range, ts, h, hord => by
    obtain ⟨us, vs, s, w, l, r, e, rfl, hus, hvs, rfl⟩ := h
    have hbody := body.builtFrom hus hord.tail.left
    have hc := c.builtFrom hvs hord.tail.right.tail.tail.left
    exact ⟨.word rfl (.cons hbody (.word rfl (.word rfl (.cons hc (.word rfl (.word rfl .nil)))))),
      across_of_merge hord (a := [⟨.identifier "do", s⟩]) (b := [⟨.punctuation ";", e⟩])
        (m := us ++ ⟨.identifier "while", w⟩ :: ⟨.punctuation "(", l⟩ ::
          (vs ++ [⟨.punctuation ")", r⟩]))
        (by simp) (by simp) (by simp) rfl rfl⟩
  | .forLoop init c step body _ range, ts, h, hord => by
    obtain ⟨us, vs, ws, xs, s, l, m, r, rfl, hus, hvs, hws, hxs, rfl⟩ := h
    have hinner := hord.tail.tail
    have hinit := Stmt.assembled_first init hus hinner.left
    have hc := Expr.assembled_opt hvs hinner.right.left
    have hstep := Expr.assembled_opt hws hinner.right.right.tail.left
    have hbody := body.builtFrom hxs hinner.right.right.tail.right.tail
    refine ⟨.word rfl (.word rfl (hinit.append (hc.append (.word rfl
      (hstep.append (.word rfl (.single hbody))))))), ?_⟩
    exact across_of_merge hord (a := [⟨.identifier "for", s⟩]) (b := xs)
      (m := ⟨.punctuation "(", l⟩ ::
        (us ++ (vs ++ ⟨.punctuation ";", m⟩ :: (ws ++ [⟨.punctuation ")", r⟩]))))
      (by simp) (by simp) hbody.ne_nil rfl hbody.2
  | .switch subject body range, ts, h, hord => by
    obtain ⟨us, vs, s, l, r, rfl, hus, hvs, rfl⟩ := h
    have hc := subject.builtFrom hus hord.tail.tail.left
    have hbody := body.builtFrom hvs hord.tail.tail.right.tail
    exact ⟨.word rfl (.word rfl (.cons hc (.word rfl (.single hbody)))),
      across_of_merge hord (a := [⟨.identifier "switch", s⟩]) (b := vs)
        (m := ⟨.punctuation "(", l⟩ :: (us ++ [⟨.punctuation ")", r⟩])) (by simp) (by simp)
        hbody.ne_nil rfl
        hbody.2⟩
  | .caseLabel value range, ts, h, hord => by
    obtain ⟨us, s, r, rfl, hus, rfl⟩ := h
    have hvalue := value.builtFrom hus hord.tail.left
    exact ⟨.word rfl (.cons hvalue (.word rfl .nil)),
      across_of_merge hord (a := [_]) (m := us) rfl (by simp) (by simp) rfl rfl⟩
  | .defaultLabel range, ts, h, hord | .continue range, ts, h, hord
  | .break range, ts, h, hord => by
    obtain ⟨s, r, rfl, rfl⟩ := h
    exact ⟨.word rfl (.word rfl .nil),
      across_of_merge hord (a := [_]) (m := []) rfl (by simp) (by simp) rfl rfl⟩
  | .return value range, ts, h, hord => by
    obtain ⟨us, s, r, rfl, hus, rfl⟩ := h
    have hvalue := Expr.assembled_opt hus hord.tail.left
    exact ⟨.word rfl (hvalue.append (.word rfl .nil)),
      across_of_merge hord (a := [_]) (m := us) rfl (by simp) (by simp) rfl rfl⟩

/-- The second branch of an `if` adds its tokens to the range of what stands before it. -/
theorem Stmt.assembled_else : ∀ (s : Option Stmt) {front range : Range} {us ts : List Token},
    Stmt.ElseReadFrom front s ts range → front = Range.across us → us ≠ [] → InOrder (us ++ ts) →
    Assembled (Part.ofElse s) ts ∧ range = Range.across (us ++ ts)
  | none, _, _, us, ts, h, hfront, _, _ => by
    obtain ⟨rfl, rfl⟩ := h
    exact ⟨.nil, by simpa using hfront⟩
  | some s, _, _, us, ts, h, hfront, hus, hord => by
    obtain ⟨vs, w, rfl, hvs, rfl⟩ := h
    have hs := s.builtFrom hvs hord.right.tail
    exact ⟨.word rfl (.single hs), across_of_merge hord (m := [_]) rfl hus hs.ne_nil hfront hs.2⟩

theorem Stmt.assembled_first : ∀ (s : Option Stmt) {ts : List Token},
    Stmt.InitReadFrom s ts → InOrder ts → Assembled (Part.ofFirst s) ts
  | none, ts, h, _ => by
    obtain ⟨r, rfl⟩ := h
    exact .word rfl .nil
  | some s, ts, h, hord => .single (s.builtFrom h hord)

/-- Statements are assembled from their tokens one after the other. -/
theorem Stmt.assembled_all : ∀ (ss : List Stmt) {ts : List Token},
    Stmt.AllReadFrom ss ts → InOrder ts → Assembled (ss.map .stmt) ts
  | [], ts, h, _ => by
    obtain rfl := h
    exact .nil
  | s :: rest, ts, h, hord => by
    obtain ⟨us, vs, rfl, hus, hvs⟩ := h
    exact .cons (s.builtFrom hus hord.left) (Stmt.assembled_all rest hvs hord.right)

/-- A block is built from its braces and the tokens of its statements. -/
theorem Block.builtFrom : ∀ (b : Block) {ts : List Token}, b.ReadFrom ts → InOrder ts →
    (Node.stmt (.block b)).BuiltFrom ts
  | ⟨stmts, _, _⟩, ts, h, hord => by
    obtain ⟨us, l, r, rfl, hus, rfl⟩ := h
    have hstmts := Stmt.assembled_all stmts hus hord.tail.left
    exact ⟨.word rfl (hstmts.append (.word rfl .nil)),
      across_of_merge hord (a := [_]) (m := us) rfl (by simp) (by simp) rfl rfl⟩

/-- A declaration that was read from tokens in their order is built from them. -/
theorem Decl.builtFrom : ∀ (d : Decl) {ts : List Token}, d.ReadFrom ts → InOrder ts →
    (Node.decl d).BuiltFrom ts
  | .var _, _, h, hord => Variable.builtFrom h hord
  | .func f, _, h, hord => f.builtFrom h hord
  | .group g, _, h, hord => g.builtFrom h hord

theorem Decl.assembled_all : ∀ (ds : List Decl) {ts : List Token},
    Decl.AllReadFrom ds ts → InOrder ts → Assembled (ds.map fun d => .node (.decl d)) ts
  | [], ts, h, _ => by
    obtain rfl := h
    exact .nil
  | d :: rest, ts, h, hord => by
    obtain ⟨us, vs, rfl, hus, hvs⟩ := h
    exact .cons (d.builtFrom hus hord.left) (Decl.assembled_all rest hvs hord.right)

/-- A function is built from its tokens up to the brace of its body. -/
theorem Func.builtFrom : ∀ (f : Func) {ts : List Token}, f.ReadFrom ts → InOrder ts →
    (Node.decl (.func f)).BuiltFrom ts
  | ⟨_, ident, type, params, body, _, _, _⟩, ts, h, hord => by
    obtain ⟨us, vs, ws, s, l, r, rfl, hus, hvs, hws, rfl⟩ := h
    have hinner := hord.tail.right.tail.tail
    have hparams := Variable.assembled_params hvs hinner.left
    have hbody := body.builtFrom hws hinner.right.tail
    refine ⟨.word rfl ((TypeRef.assembled hus).append (.cons (builtFrom_ident ident) (.word rfl
      (hparams.append (.word rfl (.single hbody)))))), ?_⟩
    exact across_of_merge hord (a := [⟨.identifier "func", s⟩]) (b := ws)
      (m := us ++ ⟨.identifier ident.name, ident.range⟩ :: ⟨.punctuation "(", l⟩ ::
        (vs ++ [⟨.punctuation ")", r⟩])) (by simp) (by simp) hbody.ne_nil rfl hbody.2

/-- A class or a namespace is built from its tokens, with its members as one node. -/
theorem Group.builtFrom : ∀ (g : Group) {ts : List Token}, g.ReadFrom ts → InOrder ts →
    (Node.decl (.group g)).BuiltFrom ts
  | ⟨kind, id, ident, members, membersRange, scope, ownScope, range⟩, ts, h, hord => by
    obtain ⟨us, s, l, r, rfl, hus, rfl, rfl⟩ := h
    have hmembers := Decl.assembled_all members hus hord.tail.tail.tail.left
    have hinner : (Node.members ⟨kind, id, ident, members, l.merge r, scope, ownScope,
        s.merge (l.merge r)⟩).BuiltFrom
          (⟨.punctuation "\x7b", l⟩ :: (us ++ [⟨.punctuation "\x7d", r⟩])) :=
      ⟨.word rfl (hmembers.append (.word rfl .nil)),
        across_of_merge hord.tail.tail (a := [_]) (m := us) rfl (by simp) (by simp) rfl rfl⟩
    exact ⟨.word rfl (.cons (builtFrom_ident ident) (.single hinner)),
      across_of_merge hord (a := [_]) (m := [_]) rfl (by simp) hinner.ne_nil rfl hinner.2⟩

end

/-! ## Nodes inside nodes -/

/-- The range lies among the tokens : it does not start before one of them nor stop
after one of them. -/
def Range.Among (ts : List Token) (r : Range) : Prop :=
  (∃ t ∈ ts, t.range.start ≤ r.start) ∧ ∃ t ∈ ts, r.stop ≤ t.range.stop

namespace Range.Among

variable {ts us : List Token} {r r' : Range}

/-- The range across tokens lies among them. -/
theorem across (h : ts ≠ []) : (Range.across ts).Among ts := by
  rw [Range.across_eq h]
  exact ⟨⟨_, List.head_mem h, le_refl _⟩, _, List.getLast_mem h, le_refl _⟩

theorem mono (h : r.Among ts) (hsub : ts ⊆ us) : r.Among us := by
  obtain ⟨⟨t, ht, hstart⟩, u, hu, hstop⟩ := h
  exact ⟨⟨t, hsub ht, hstart⟩, u, hsub hu, hstop⟩

/-- A range among earlier tokens stops before one among later tokens starts. -/
theorem stop_le_start (h : r.Among ts) (h' : r'.Among us) (hord : InOrder (ts ++ us)) :
    r.stop ≤ r'.start := by
  obtain ⟨-, t, ht, hstop⟩ := h
  obtain ⟨⟨u, hu, hstart⟩, -⟩ := h'
  exact hstop.trans ((hord.stop_le_start ht hu).trans hstart)

/-- What lies among tokens in order lies in the range across them. -/
theorem within_across (h : r.Among ts) (hord : InOrder ts) :
    (Range.across ts).start ≤ r.start ∧ r.stop ≤ (Range.across ts).stop := by
  obtain ⟨⟨t, ht, hstart⟩, u, hu, hstop⟩ := h
  have hne := List.ne_nil_of_mem ht
  rw [Range.across_eq hne]
  refine ⟨le_trans ?_ hstart, hstop.trans ?_⟩
  · obtain ⟨first, rest, rfl⟩ := List.exists_cons_of_ne_nil hne
    rcases List.mem_cons.1 ht with rfl | hrest
    · exact le_refl _
    · exact (hord.filled _ (by simp)).le.trans (List.rel_of_pairwise_cons hord.apart hrest)
  · obtain ⟨front, last, rfl⟩ := (List.eq_nil_or_concat' ts).resolve_left hne
    simp only [List.mem_append, List.mem_singleton] at hu
    rcases hu with hfront | rfl
    · have hlast := hord.filled last (by simp)
      simpa using (hord.stop_le_start hfront (by simp)).trans hlast.le
    · simp

end Range.Among

namespace Node

variable {n : Node} {ts : List Token}

/-- The range of a node counts at least one of its tokens. -/
theorem counted_ne_nil (h : Assembled n.parts ts) : n.counted ts ≠ [] := by
  have hne := h.ne_nil n.parts_ne_nil
  cases n with
  | param v =>
    obtain ⟨id, ident, type, init, constant, scope, range⟩ := v
    match type, h with
    | none, _ => exact hne
    | some (.named _), _ => exact hne
    | some (.builtin type), h =>
      cases h with
      | word _ rest => exact rest.ne_nil (by simp)
  | _ => exact hne

/-- The tokens that a range counts are tokens of the node. -/
theorem counted_sublist (n : Node) (ts : List Token) : (n.counted ts).Sublist ts := by
  unfold counted
  split
  · exact List.tail_sublist ts
  · exact List.Sublist.refl ts

/-- The range of a node lies among its tokens. -/
theorem BuiltFrom.among (h : n.BuiltFrom ts) : n.range.Among ts := by
  rw [h.2]
  exact (Range.Among.across (counted_ne_nil h.1)).mono (n.counted_sublist ts).subset

end Node

/-- The nodes among some parts lie among the tokens, one after the other. -/
theorem Assembled.inOrder {ps : List Part} {ts : List Token} (h : Assembled ps ts)
    (hord : InOrder ts) :
    (∀ n ∈ ps.filterMap Part.node?, n.range.Among ts) ∧
      (ps.filterMap Part.node?).Pairwise fun c d => c.range.stop ≤ d.range.start := by
  induction h with
  | nil => simp
  | word _ _ ih =>
    obtain ⟨hamong, hpair⟩ := ih hord.tail
    exact ⟨fun n hn => (hamong n hn).mono (List.subset_cons_self _ _), hpair⟩
  | @node n us ps ts parts range rest _ ih =>
    obtain ⟨hamong, hpair⟩ := ih hord.right
    have hn : n.range.Among us := Node.BuiltFrom.among ⟨parts, range⟩
    simp only [List.filterMap_cons, Part.node?, List.forall_mem_cons, List.pairwise_cons]
    refine ⟨⟨hn.mono (by simp), fun m hm => (hamong m hm).mono (by simp)⟩, fun m hm => ?_, hpair⟩
    exact hn.stop_le_start (hamong m hm) hord

/-- The nodes among some parts were built from pieces of the tokens. -/
theorem Assembled.exists_builtFrom {ps : List Part} {ts : List Token} (h : Assembled ps ts)
    {n : Node} (hn : n ∈ ps.filterMap Part.node?) : ∃ us, us <:+: ts ∧ n.BuiltFrom us := by
  induction h with
  | nil => simp at hn
  | word _ _ ih =>
    obtain ⟨us, hus, hbuilt⟩ := ih hn
    exact ⟨us, List.infix_cons hus, hbuilt⟩
  | @node m us ps ts parts range rest _ ih =>
    rcases List.mem_cons.1 hn with rfl | hn
    · exact ⟨us, (List.prefix_append us ts).isInfix, parts, range⟩
    · obtain ⟨vs, hvs, hbuilt⟩ := ih hn
      exact ⟨vs, hvs.trans (List.suffix_append us ts).isInfix, hbuilt⟩

/-- What is to be said of the range of a node of a text with the tokens `ts`. -/
structure Node.Exact (ts : List Token) (n : Node) : Prop where
  /-- The node was built from a piece of the tokens and has the range across it. -/
  built : ∃ us, us <:+: ts ∧ n.BuiltFrom us
  /-- The nodes inside lie in the range of the node. -/
  within : ∀ c ∈ n.children, n.range.start ≤ c.range.start ∧ c.range.stop ≤ n.range.stop
  /-- They stand one after the other. -/
  apart : n.children.Pairwise fun c d => c.range.stop ≤ d.range.start

namespace Node

variable {n m : Node} {ts us : List Token}

/-- The nodes inside a node lie among the tokens that its range counts. -/
theorem among_counted (h : Assembled n.parts ts) (hord : InOrder ts) :
    ∀ c ∈ n.children, c.range.Among (n.counted ts) := by
  have hall := (h.inOrder hord).1
  cases n with
  | param v =>
    obtain ⟨id, ident, type, init, constant, scope, range⟩ := v
    match type, h, hall with
    | none, _, hall => exact hall
    | some (.named _), _, hall => exact hall
    | some (.builtin type), h, _ =>
      cases h with
      | word _ rest => exact (rest.inOrder hord.tail).1
  | _ => exact hall

/-- A node that is built from tokens of the text has an exact range. -/
theorem BuiltFrom.exact (h : n.BuiltFrom us) (hsub : us <:+: ts) (hord : InOrder ts) :
    n.Exact ts where
  built := ⟨us, hsub, h⟩
  within c hc := by
    have hus := hord.sublist hsub.sublist
    rw [h.2]
    exact (among_counted h.1 hus c hc).within_across (hus.sublist (n.counted_sublist us))
  apart := (h.1.inOrder (hord.sublist hsub.sublist)).2

/-- A node inside another one is built from tokens of that one which stand together. -/
theorem BuiltFrom.exists_of_holds (h : n.BuiltFrom us) (hm : n.Holds m) :
    ∃ vs, vs <:+: us ∧ m.BuiltFrom vs := by
  induction hm generalizing us with
  | self n => exact ⟨us, List.infix_refl us, h⟩
  | child hc _ ih =>
    obtain ⟨vs, hvs, hchild⟩ := h.1.exists_builtFrom hc
    obtain ⟨ws, hws, hbuilt⟩ := ih hchild
    exact ⟨ws, hws.trans hvs, hbuilt⟩

end Node

/-! ## Texts -/

namespace Range

/-- A range across tokens is known and is not empty. -/
theorem across_filled {ts : List Token} (hord : InOrder ts) (h : ts ≠ []) :
    Location.origin ≤ (across ts).start ∧ (across ts).start < (across ts).stop := by
  have hmem := List.head_mem h
  have hamong : (ts.head h).range.Among ts := ⟨⟨_, hmem, le_rfl⟩, _, hmem, le_rfl⟩
  obtain ⟨hstart, hstop⟩ := hamong.within_across hord
  refine ⟨?_, hstart.trans_lt ((hord.filled _ hmem).trans_le hstop)⟩
  rw [across_eq h]
  exact hord.known _ hmem

/-- Ranges that stand one after the other, none of them unknown or turned round. -/
structure InRow (rs : List Range) : Prop where
  known : ∀ r ∈ rs, Location.origin ≤ r.start
  filled : ∀ r ∈ rs, r.start ≤ r.stop
  apart : rs.Pairwise fun r r' => r.stop ≤ r'.start

/-- Ranges in a row are merged to the one from the first to the last. -/
theorem foldl_merge {rs : List Range} {r : Range} (h : InRow (r :: rs)) :
    rs.foldl merge r = ⟨r.start, ((r :: rs).getLast (by simp)).stop⟩ := by
  induction rs generalizing r with
  | nil => rfl
  | cons next rs ih =>
    obtain ⟨hknown, hfilled, hapart⟩ := h
    simp only [List.forall_mem_cons] at hknown hfilled
    obtain ⟨hr, hrest⟩ := List.pairwise_cons.1 hapart
    obtain ⟨hnext, hrest⟩ := List.pairwise_cons.1 hrest
    have hstop := hr next (by simp)
    have hstart := hfilled.1.trans hstop
    have hmerge := merge_of_le hknown.1 hstart (hstop.trans hfilled.2.1)
    have hrow : InRow (⟨r.start, next.stop⟩ :: rs) :=
      ⟨by simpa using ⟨hknown.1, hknown.2.2⟩,
        by simpa using ⟨hstart.trans hfilled.2.1, hfilled.2.2⟩,
        .cons hnext hrest⟩
    rw [List.foldl_cons, hmerge, ih hrow]
    cases rs with
    | nil => rfl
    | cons _ _ => simp

/-- The hull of ranges in a row runs from the start of the first to the stop of the last. -/
theorem hull_cons {rs : List Range} {r : Range} (h : InRow (r :: rs)) :
    hull (r :: rs) = ⟨r.start, ((r :: rs).getLast (by simp)).stop⟩ :=
  foldl_merge h

end Range

/-- What is to be said of the ranges of a text with the tokens `ts` : the members of the text were
built from all of them, one after the other, the nodes in them have exact ranges, and the range of
the text runs from the first member to the last. -/
structure ExactRanges (ts : List Token) (members : List Node) (range : Range) : Prop where
  built : Assembled (members.map .node) ts
  nodes : ∀ n ∈ members, ∀ m, n.Holds m → m.Exact ts
  apart : members.Pairwise fun c d => c.range.stop ≤ d.range.start
  empty : members = [] → range = .unknown
  hull : ∀ first last, members.head? = some first → members.getLast? = some last →
    range = ⟨first.range.start, last.range.stop⟩

/-- Members that were built from tokens in order have exact ranges, and their hull is
the range of the text. -/
theorem exactRanges {ts : List Token} {members : List Node} (h : Assembled (members.map .node) ts)
    (hord : InOrder ts) : ExactRanges ts members (Range.hull (members.map Node.range)) := by
  have hnodes : (members.map Part.node).filterMap Part.node? = members := by
    simp [List.filterMap_map, Function.comp_def, Part.node?]
  have hbuilt : ∀ n ∈ members, ∃ us, us <:+: ts ∧ n.BuiltFrom us := fun n hn =>
    h.exists_builtFrom (hnodes.symm ▸ hn)
  have hapart := (h.inOrder hord).2
  rw [hnodes] at hapart
  have hfilled : ∀ n ∈ members, Location.origin ≤ n.range.start ∧ n.range.start < n.range.stop := by
    intro n hn
    obtain ⟨us, hus, hn⟩ := hbuilt n hn
    rw [hn.2]
    exact Range.across_filled (hord.sublist ((n.counted_sublist us).trans hus.sublist))
      (Node.counted_ne_nil hn.1)
  refine ⟨h, fun n hn m hm => ?_, hapart, ?_, ?_⟩
  · obtain ⟨us, hus, hn⟩ := hbuilt n hn
    obtain ⟨vs, hvs, hm⟩ := hn.exists_of_holds hm
    exact hm.exact (hvs.trans hus) hord
  · rintro rfl
    rfl
  · intro first last hfirst hlast
    obtain ⟨rest, rfl⟩ := List.head?_eq_some_iff.1 hfirst
    have hrow : Range.InRow ((first :: rest).map Node.range) :=
      ⟨List.forall_mem_map.2 fun n hn => (hfilled n hn).1,
        List.forall_mem_map.2 fun n hn => (hfilled n hn).2.le, List.pairwise_map.2 hapart⟩
    have hstop : (first :: rest).getLast (by simp) = last :=
      Option.some.inj ((List.getLast?_eq_some_getLast _).symm.trans hlast)
    rw [List.map_cons, Range.hull_cons (by simpa using hrow), ← hstop]
    simp only [← List.map_cons, List.getLast_map]

namespace Buffer

variable {b : Buffer}

/-- A script that can be read has exact ranges over the tokens of its text. -/
theorem exactRanges_of_script {s : Script} (h : b.script = .ok s) :
    ∃ ts, b.tokens = .ok ts ∧ ExactRanges ts (s.stmts.map .stmt) s.range := by
  obtain ⟨ts, hts, hread, -, hrange⟩ := tokens_of_eval Parse.takes_script h
  have hord := inOrder_of_tokens hts
  have hbuilt : Assembled ((s.stmts.map Node.stmt).map .node) ts := by
    rw [List.map_map]
    exact Stmt.assembled_all s.stmts hread hord
  have hexact := exactRanges hbuilt hord
  refine ⟨ts, hts, ?_⟩
  rw [hrange]
  simpa [Function.comp_def, Node.range] using hexact

/-- A program that can be read has exact ranges over the tokens of its text. -/
theorem exactRanges_of_program {u : Program} (h : b.program = .ok u) :
    ∃ ts, b.tokens = .ok ts ∧ ExactRanges ts (u.decls.map .decl) u.range := by
  obtain ⟨ts, hts, hread, hrange⟩ := tokens_of_eval Parse.takes_program h
  have hord := inOrder_of_tokens hts
  have hbuilt : Assembled ((u.decls.map Node.decl).map .node) ts := by
    rw [List.map_map]
    exact Decl.assembled_all u.decls hread hord
  have hexact := exactRanges hbuilt hord
  refine ⟨ts, hts, ?_⟩
  rw [hrange]
  simpa [Function.comp_def, Node.range] using hexact

end Buffer

/-- Ranges are exact : every node of a text that is read has the range from the first to the last of
the tokens from which it was built, but for the builtin type of a parameter. So nodes lie in the
nodes that hold them, side by side, and the range of the text is the hull of its members. -/
theorem Buffer.ranges_exact (b : Buffer) :
    (∀ s, b.script = .ok s → ∃ ts, b.tokens = .ok ts ∧ ExactRanges ts (s.stmts.map .stmt) s.range) ∧
      ∀ u, b.program = .ok u →
      ∃ ts, b.tokens = .ok ts ∧ ExactRanges ts (u.decls.map .decl) u.range :=
  ⟨fun _ => exactRanges_of_script, fun _ => exactRanges_of_program⟩

/-- A parameter with a builtin type starts at its name, one with a named type at the type. -/
theorem Buffer.ranges_exact_params : ∃ u ts,
    (anonymous "\nfunc f(int a, T b) \x7b if (a) return; \x7d ").program = .ok u ∧
      (anonymous "\nfunc f(int a, T b) \x7b if (a) return; \x7d ").tokens = .ok ts ∧
      u.range = ⟨⟨2, 1⟩, ⟨2, 38⟩⟩ ∧
      (u.functions.flatMap Func.params).map Variable.range =
        [⟨⟨2, 12⟩, ⟨2, 13⟩⟩, ⟨⟨2, 15⟩, ⟨2, 18⟩⟩] ∧
      ExactRanges ts (u.decls.map .decl) u.range := by
  have hread : ((anonymous "\nfunc f(int a, T b) \x7b if (a) return; \x7d ").program.map fun u =>
      (u.range, (u.functions.flatMap Func.params).map Variable.range)).toOption =
        some (⟨⟨2, 1⟩, ⟨2, 38⟩⟩, [⟨⟨2, 12⟩, ⟨2, 13⟩⟩, ⟨⟨2, 15⟩, ⟨2, 18⟩⟩]) := by decide +kernel
  cases hu : (anonymous "\nfunc f(int a, T b) \x7b if (a) return; \x7d ").program with
  | error e => simp [hu, Except.map, Except.toOption] at hread
  | ok u =>
    obtain ⟨hrange, hparams⟩ : u.range = _ ∧
        (u.functions.flatMap Func.params).map Variable.range = _ := by
      simpa [hu, Except.map, Except.toOption] using hread
    obtain ⟨ts, hts, hexact⟩ := (ranges_exact _).2 u hu
    exact ⟨u, ts, rfl, hts, hrange, hparams, hexact⟩

end Rill
