import Rill.Proofs.Extent

/-!
# The roles of tokens

Every token from which a tree was read plays a part in it : it is a word that makes a statement or a
declaration what it is, a name, the word of a builtin type, or anything else. `Stmt.roles` lists
these roles in the order in which the tree is written, so the tokens of a text and the roles of its
tree match one by one (`Serves`). An identifier is a word or a name according to where it stands,
not to how it is spelled.

The names and types that a tree mentions go with its roles (`Recounts`). They differ in order only,
as a declaration mentions its name before its type, so they are those among the roles (`Visits`).
-/

namespace Rill

/-- The part that a token plays in a tree. -/
inductive Role where
  | plain
  | word (text : String)
  | name (ident : Ident)
  | builtin (type : BuiltinType)

namespace Role

/-- Whether the token is a word of a statement or a declaration. -/
def isWord : Role → Bool
  | .word _ => true
  | _ => false

/-- The name that the token is. -/
def ident? : Role → Option Ident
  | .name ident => some ident
  | _ => none

/-- The builtin type that the token is. -/
def type? : Role → Option BuiltinType
  | .builtin type => some type
  | _ => none

/-- The names among roles, in order. -/
def idents (rs : List Role) : List Ident := rs.filterMap ident?

section

variable (rs rs' : List Role)

@[simp]
theorem idents_nil : idents [] = [] := rfl

@[simp]
theorem idents_plain : idents (.plain :: rs) = idents rs := rfl

@[simp]
theorem idents_word (text : String) : idents (.word text :: rs) = idents rs := rfl

@[simp]
theorem idents_name (i : Ident) : idents (.name i :: rs) = i :: idents rs := rfl

@[simp]
theorem idents_builtin (type : BuiltinType) : idents (.builtin type :: rs) = idents rs := rfl

/-- The names among roles in sequence are in sequence. -/
@[simp]
theorem idents_append : idents (rs ++ rs') = idents rs ++ idents rs' := List.filterMap_append

end

end Role

/-- The token that a name was read from. -/
def Ident.token (i : Ident) : Token := ⟨.identifier i.name, i.range⟩

/-- The builtin type that a token is the word of. -/
def Token.type? (t : Token) : Option BuiltinType :=
  match t.lexeme with
  | .keyword (.type type) => some type
  | _ => none

/-- Whether a token can play a part. -/
def Role.Fits (t : Token) : Role → Prop
  | .plain => t.kind ≠ .identifier ∧ t.type? = none
  | .word text => t.lexeme = .identifier text ∧ text ∈ "else" :: statementWords
  | .name ident => t = ident.token
  | .builtin type => t.lexeme = .keyword (.type type)

/-- The tokens play the parts one by one. -/
abbrev Serves (ts : List Token) (rs : List Role) : Prop :=
  List.Forall₂ Role.Fits ts rs

/-! ## The roles of a tree -/

mutual

/-- The roles of the tokens of an expression. -/
def Expr.roles : Expr → List Role
  | .literal .. => [.plain]
  | .name ident => [.name ident]
  | .paren inner _ => .plain :: (inner.roles ++ [.plain])
  | .unary op operand _ => if op.isPost then operand.roles ++ [.plain] else .plain :: operand.roles
  | .binary _ lhs rhs _ => lhs.roles ++ .plain :: rhs.roles
  | .ternary c a b _ => c.roles ++ .plain :: (a.roles ++ .plain :: b.roles)
  | .member object field _ => object.roles ++ [.plain, .name field]
  | .subscript object index _ => object.roles ++ .plain :: (index.roles ++ [.plain])
  | .call callee args _ => callee.roles ++ .plain :: (Expr.argRoles args ++ [.plain])

/-- The roles of expressions with commas in between. -/
def Expr.argRoles : List Expr → List Role
  | [] => []
  | [e] => e.roles
  | e :: next :: rest => e.roles ++ .plain :: Expr.argRoles (next :: rest)

end

/-- The roles of an expression that may be missing. -/
def Expr.roles? : Option Expr → List Role
  | none => []
  | some e => e.roles

/-- The roles of an initial value and the mark before it. -/
def Expr.initRoles : Option Expr → List Role
  | none => []
  | some e => .plain :: e.roles

/-- The role of a type annotation. -/
def TypeRef.roles : Option TypeRef → List Role
  | none => []
  | some (.builtin type) => [.builtin type]
  | some (.named ident) => [.name ident]

/-- The roles of a variable or a constant. -/
def Variable.roles (v : Variable) : List Role :=
  .word (Variable.word v.constant) ::
    (TypeRef.roles v.type ++ .name v.ident :: (Expr.initRoles v.init ++ [.plain]))

/-- The roles of a parameter. -/
def Variable.paramRoles (v : Variable) : List Role := TypeRef.roles v.type ++ [.name v.ident]

/-- The roles of parameters with commas in between. -/
def Variable.paramsRoles : List Variable → List Role
  | [] => []
  | [v] => v.paramRoles
  | v :: next :: rest => v.paramRoles ++ .plain :: Variable.paramsRoles (next :: rest)

mutual

/-- The roles of the tokens of a statement. -/
def Stmt.roles : Stmt → List Role
  | .expr e _ => e.roles ++ [.plain]
  | .decl d _ => d.roles
  | .block b => b.roles
  | .ifElse c a b _ => .word "if" :: .plain :: (c.roles ++ .plain :: (a.roles ++ Stmt.elseRoles b))
  | .whileDo c body _ => .word "while" :: .plain :: (c.roles ++ .plain :: body.roles)
  | .doWhile body c _ =>
    .word "do" :: (body.roles ++ .word "while" :: .plain :: (c.roles ++ [.plain, .plain]))
  | .forLoop init c step body _ _ => .word "for" :: .plain :: (Stmt.initRoles init ++
    (Expr.roles? c ++ .plain :: (Expr.roles? step ++ .plain :: body.roles)))
  | .switch subject body _ => .word "switch" :: .plain :: (subject.roles ++ .plain :: body.roles)
  | .caseLabel value _ => .word "case" :: (value.roles ++ [.plain])
  | .defaultLabel _ => [.word "default", .plain]
  | .continue _ => [.word "continue", .plain]
  | .break _ => [.word "break", .plain]
  | .return value _ => .word "return" :: (Expr.roles? value ++ [.plain])

/-- The roles of the second branch of an `if`. -/
def Stmt.elseRoles : Option Stmt → List Role
  | none => []
  | some s => .word "else" :: s.roles

/-- The roles of the first part of a `for` loop, which ends in a semicolon. -/
def Stmt.initRoles : Option Stmt → List Role
  | none => [.plain]
  | some s => s.roles

/-- The roles of statements one after the other. -/
def Stmt.allRoles : List Stmt → List Role
  | [] => []
  | s :: rest => s.roles ++ Stmt.allRoles rest

/-- The roles of statements in braces. -/
def Block.roles : Block → List Role
  | ⟨stmts, _, _⟩ => .plain :: (Stmt.allRoles stmts ++ [.plain])

/-- The roles of the tokens of a declaration. -/
def Decl.roles : Decl → List Role
  | .var v => v.roles
  | .func f => f.roles
  | .group g => g.roles

/-- The roles of declarations one after the other. -/
def Decl.allRoles : List Decl → List Role
  | [] => []
  | d :: rest => d.roles ++ Decl.allRoles rest

/-- The roles of a function. -/
def Func.roles : Func → List Role
  | ⟨_, ident, type, params, body, _, _, _⟩ => .word "func" :: (TypeRef.roles type ++ .name ident ::
    .plain :: (Variable.paramsRoles params ++ .plain :: body.roles))

/-- The roles of a class or a namespace. -/
def Group.roles : Group → List Role
  | ⟨kind, _, ident, members, _, _, _, _⟩ => .word (Parse.groupWord kind) :: .name ident ::
    .plain :: (Decl.allRoles members ++ [.plain])

end

/-! ## Roles by parts -/

/-- The role of a token that matches a pattern. -/
def TokenPattern.role : TokenPattern → Role
  | .word (.identifier text) => .word text
  | .word (.keyword (.type type)) => .builtin type
  | _ => .plain

namespace Node

/-- The name that a node consists of. -/
def name? : Node → Option Ident
  | .ident i | .expr (.name i) => some i
  | _ => none

/-- The roles of the tokens of a node. -/
def roles : Node → List Role
  | .ident i => [.name i]
  | .expr e => e.roles
  | .param v => v.paramRoles
  | .stmt s => s.roles
  | .decl d => d.roles
  | .members g => .plain :: (Decl.allRoles g.members ++ [.plain])

end Node

/-- The roles of the tokens of a part. -/
def Part.roles : Part → List Role
  | .word m => [m.role]
  | .node n => n.roles

namespace Part

/-- Arguments have the roles of their expressions, with commas in between. -/
theorem roles_separated_exprs (es : List Expr) :
    (separated (es.map .expr)).flatMap roles = Expr.argRoles es := by
  induction es with
  | nil => rfl
  | cons e rest ih =>
    cases rest with
    | nil => simp [separated, roles, Node.roles, Expr.argRoles]
    | cons next rest =>
      simpa [separated, roles, Node.roles, TokenPattern.role, Expr.argRoles] using ih

theorem roles_separated_params (vs : List Variable) :
    (separated (vs.map .param)).flatMap roles = Variable.paramsRoles vs := by
  induction vs with
  | nil => rfl
  | cons v rest ih =>
    cases rest with
    | nil => simp [separated, roles, Node.roles, Variable.paramsRoles]
    | cons next rest =>
      simpa [separated, roles, Node.roles, TokenPattern.role, Variable.paramsRoles] using ih

/-- Statements have the roles of one after the other. -/
theorem roles_stmts (ss : List Stmt) : (ss.map stmt).flatMap roles = Stmt.allRoles ss := by
  induction ss with
  | nil => rfl
  | cons s ss ih => rw [List.map_cons, List.flatMap_cons, ih, Stmt.allRoles, roles, Node.roles]

theorem roles_decls (ds : List Decl) :
    (ds.map fun d => Part.node (.decl d)).flatMap roles = Decl.allRoles ds := by
  induction ds with
  | nil => rfl
  | cons d ds ih => rw [List.map_cons, List.flatMap_cons, ih, Decl.allRoles, roles, Node.roles]

theorem roles_expr? (e : Option Expr) : (e.toList.map expr).flatMap roles = Expr.roles? e := by
  cases e <;> simp [roles, Node.roles, Expr.roles?]

theorem roles_ofType (type : Option TypeRef) :
    (ofType type).flatMap roles = TypeRef.roles type := by
  rcases type with _ | _ | _ <;> rfl

theorem roles_ofInit (e : Option Expr) : (ofInit e).flatMap roles = Expr.initRoles e := by
  cases e <;> simp [ofInit, roles, Node.roles, Expr.initRoles, TokenPattern.role]

/-- The second branch of an `if` has the role of its word and those of its statement. -/
theorem roles_ofElse (s : Option Stmt) : (ofElse s).flatMap roles = Stmt.elseRoles s := by
  cases s <;> simp [ofElse, roles, Node.roles, Stmt.elseRoles, TokenPattern.role]

/-- The first part of a `for` loop has the roles of its statement or of a semicolon. -/
theorem roles_ofFirst (s : Option Stmt) : (ofFirst s).flatMap roles = Stmt.initRoles s := by
  cases s <;> simp [ofFirst, roles, Node.roles, Stmt.initRoles, TokenPattern.role]

/-- The parts of an expression have its roles, unless it is a name and its own part. -/
theorem roles_ofExpr {e : Expr} (h : (Node.expr e).name? = none) :
    (ofExpr e).flatMap roles = e.roles := by
  cases e with
  | name i => cases h
  | unary op operand range =>
    cases hop : op.isPost <;> simp [ofExpr, roles, Node.roles, TokenPattern.role, Expr.roles, hop]
  | call callee args range =>
    have hargs := roles_separated_exprs args
    simp [ofExpr, roles, Node.roles, TokenPattern.role, Expr.roles, hargs]
  | _ => simp [ofExpr, roles, Node.roles, TokenPattern.role, Expr.roles]

/-- The parts of a statement have its roles. -/
theorem roles_ofStmt (s : Stmt) : (ofStmt s).flatMap roles = s.roles := by
  cases s with
  | block b =>
    obtain ⟨stmts, scope, range⟩ := b
    simp [ofStmt, roles, TokenPattern.role, Stmt.roles, Block.roles, roles_stmts]
  | ifElse c a b range =>
    simp [ofStmt, roles, Node.roles, TokenPattern.role, Stmt.roles, roles_ofElse]
  | forLoop init c step body scope range =>
    simp [ofStmt, roles, Node.roles, TokenPattern.role, Stmt.roles, roles_ofFirst, roles_expr?]
  | «return» value range => simp [ofStmt, roles, TokenPattern.role, Stmt.roles, roles_expr?]
  | _ => simp [ofStmt, roles, Node.roles, TokenPattern.role, Stmt.roles]

/-- The parts of a declaration have its roles. -/
theorem roles_ofDecl (d : Decl) : (ofDecl d).flatMap roles = d.roles := by
  cases d with
  | var v =>
    simp [ofDecl, roles, Node.roles, TokenPattern.role, Decl.roles, Variable.roles, roles_ofType,
      roles_ofInit]
  | func f =>
    obtain ⟨id, ident, type, params, body, scope, own, range⟩ := f
    simp [ofDecl, roles, Node.roles, TokenPattern.role, Decl.roles, Func.roles, Stmt.roles,
      roles_ofType, roles_separated_params]
  | group g =>
    obtain ⟨kind, id, ident, members, membersRange, scope, own, range⟩ := g
    simp [ofDecl, roles, Node.roles, TokenPattern.role, Decl.roles, Group.roles]

end Part

/-- The roles of a node that is no name are those of its parts. -/
theorem Node.roles_eq_parts {n : Node} (h : n.name? = none) :
    n.roles = n.parts.flatMap Part.roles := by
  cases n with
  | ident i => cases h
  | expr e => exact (Part.roles_ofExpr h).symm
  | param v => simp [roles, parts, Variable.paramRoles, Part.roles_ofType, Part.roles]
  | stmt s => exact (Part.roles_ofStmt s).symm
  | decl d => exact (Part.roles_ofDecl d).symm
  | members g => simp [roles, parts, Part.roles, TokenPattern.role, Part.roles_decls]

/-! ## The tokens of a tree serve its roles -/

/-- No word of the grammar stands among nodes with commas. -/
theorem Part.ident_notMem_separated (text : String) :
    ∀ ns : List Node, Part.ident text ∉ separated ns
  | [] => by simp [separated]
  | [n] => by simp [separated]
  | n :: next :: rest => by
    have ih := ident_notMem_separated text (next :: rest)
    simpa [separated] using ih

/-- The identifiers that a node has as words of its own are words of statements, unless
it is a name. -/
theorem Node.mem_words_of_parts {n : Node} (hn : n.name? = none) {text : String}
    (h : Part.ident text ∈ n.parts) :
    text ∈ "else" :: statementWords := by
  have htype : ∀ type, Part.ident text ∉ Part.ofType type := by
    rintro (_ | _ | _) <;> simp [Part.ofType]
  cases n with
  | ident i => cases hn
  | expr e =>
    cases e with
    | name i => cases hn
    | unary op operand range => cases hop : op.isPost <;> simp [parts, Part.ofExpr, hop] at h
    | call callee args range => simp [parts, Part.ofExpr, Part.ident_notMem_separated] at h
    | _ => simp [parts, Part.ofExpr] at h
  | param v => simp [parts, htype] at h
  | stmt s =>
    cases s with
    | ifElse c a b range =>
      obtain rfl | rfl : text = "if" ∨ text = "else" := by
        cases b <;> simp [parts, Part.ofStmt, Part.ofElse] at h <;> simp [h]
      all_goals decide
    | doWhile body c range =>
      obtain rfl | rfl : text = "do" ∨ text = "while" := by simpa [parts, Part.ofStmt] using h
      all_goals decide
    | forLoop init c step body scope range =>
      obtain rfl : text = "for" := by
        cases init <;> simpa [parts, Part.ofStmt, Part.ofFirst] using h
      decide
    | _ =>
      simp [parts, Part.ofStmt] at h <;>
      · subst h
        decide
  | decl d =>
    cases d with
    | var v =>
      have hinit : ∀ init, Part.ident text ∉ Part.ofInit init := by
        rintro (_ | _) <;> simp [Part.ofInit]
      obtain rfl : text = Variable.word v.constant := by
        simpa [parts, Part.ofDecl, htype, hinit] using h
      cases v.constant <;> decide
    | func f =>
      obtain rfl : text = "func" := by
        simpa [parts, Part.ofDecl, htype, Part.ident_notMem_separated] using h
      decide
    | group g =>
      obtain rfl : text = Parse.groupWord g.kind := by simpa [parts, Part.ofDecl] using h
      cases g.kind <;> decide
  | members g => simp [parts] at h

/-- A token that matches a pattern plays its role, if the words among the patterns are words of
statements. -/
theorem TokenPattern.Fits.role {m : TokenPattern} {t : Token} (h : m.Fits t)
    (hword : ∀ text, m = .ident text → text ∈ "else" :: statementWords) : m.role.Fits t := by
  obtain ⟨lexeme, range⟩ := t
  cases m with
  | literal value =>
    cases lexeme with
    | identifier text => cases h
    | keyword word =>
      cases word with
      | type type => cases h
      | _ => exact ⟨nofun, rfl⟩
    | _ => exact ⟨nofun, rfl⟩
  | word lexeme' =>
    obtain rfl : lexeme = lexeme' := h
    cases lexeme with
    | identifier text => exact ⟨rfl, hword text rfl⟩
    | keyword word =>
      cases word with
      | type type => rfl
      | _ => exact ⟨nofun, rfl⟩
    | _ => exact ⟨nofun, rfl⟩

/-- A name was built from its token. -/
theorem Node.BuiltFrom.eq_token {n : Node} {i : Ident} {us : List Token} (h : n.BuiltFrom us)
    (hn : n.name? = some i) : us = [i.token] ∧ n.roles = [.name i] := by
  have hname : ∀ {us : List Token}, Assembled [Part.ident i.name] us → i.range = Range.across us →
      us = [i.token] := by
    rintro _ (_ | ⟨hfits, _ | _⟩) hrange
    rw [Ident.token, hrange, ← (hfits : _ = Lexeme.identifier i.name)]
    rfl
  cases n with
  | ident i' =>
    obtain rfl := Option.some.inj hn
    exact ⟨hname h.1 h.2, rfl⟩
  | expr e =>
    cases e with
    | name i' =>
      obtain rfl := Option.some.inj hn
      exact ⟨hname h.1 h.2, by rw [roles, Expr.roles]⟩
    | _ => cases hn
  | _ => cases hn

/-- The tokens that are cut into parts play the roles of these parts. -/
theorem Assembled.serves {ps : List Part} {ts : List Token} (h : Assembled ps ts)
    (hwords : ∀ text, Part.ident text ∈ ps → text ∈ "else" :: statementWords) :
    Serves ts (ps.flatMap Part.roles) := by
  induction h with
  | nil => exact .nil
  | @word m t ps ts fits _ ih =>
    have hrest := ih fun text hm => hwords text (List.mem_cons_of_mem _ hm)
    exact .cons (fits.role fun text hm => hwords text (by rw [hm]; exact List.mem_cons_self)) hrest
  | @node n us ps ts parts range _ ihparts ih =>
    refine List.rel_append ?_ (ih fun text hm => hwords text (List.mem_cons_of_mem _ hm))
    rw [Part.roles]
    cases hn : n.name? with
    | none =>
      rw [Node.roles_eq_parts hn]
      exact ihparts fun text hm => Node.mem_words_of_parts hn hm
    | some i =>
      obtain ⟨rfl, hroles⟩ := Node.BuiltFrom.eq_token ⟨parts, range⟩ hn
      rw [hroles]
      exact .cons rfl .nil

/-- The tokens of statements that were read play the roles of these statements. -/
theorem Stmt.serves_of_allReadFrom {ss : List Stmt} {ts : List Token} (h : Stmt.AllReadFrom ss ts)
    (hord : InOrder ts) :
    Serves ts (Stmt.allRoles ss) := by
  rw [← Part.roles_stmts]
  refine (Stmt.assembled_all ss h hord).serves fun text hm => ?_
  simp at hm

theorem Decl.serves_of_allReadFrom {ds : List Decl} {ts : List Token} (h : Decl.AllReadFrom ds ts)
    (hord : InOrder ts) :
    Serves ts (Decl.allRoles ds) := by
  rw [← Part.roles_decls]
  refine (Decl.assembled_all ds h hord).serves fun text hm => ?_
  simp at hm

/-! ## Identifiers and types by their roles -/

/-- The identifiers among tokens that do not serve as words. -/
def freeIdentifiers (ts : List Token) (rs : List Role) : List Token :=
  ((ts.zip rs).filter fun x => x.1.kind == .identifier && !x.2.isWord).map Prod.fst

namespace Serves

variable {ts : List Token} {rs : List Role}

/-- The identifiers that do not serve as words are the names. -/
theorem freeIdentifiers_eq (h : Serves ts rs) :
    freeIdentifiers ts rs = (Role.idents rs).map Ident.token := by
  rw [freeIdentifiers]
  induction h with
  | nil => rfl
  | @cons t r ts rs hfits _ ih =>
    cases r with
    | plain => simpa [hfits.1] using ih
    | word text => simpa [Role.isWord] using ih
    | name i =>
      obtain rfl := hfits
      simpa [Role.isWord, Ident.token, Token.kind, Lexeme.kind] using ih
    | builtin type =>
      have hlexeme : t.lexeme = .keyword (.type type) := hfits
      have hkind : t.kind ≠ .identifier := by simp [Token.kind, hlexeme, Lexeme.kind]
      simpa [hkind] using ih

/-- The free identifiers are among the tokens, in their order. -/
theorem freeIdentifiers_sublist (h : Serves ts rs) : (freeIdentifiers ts rs).Sublist ts := by
  have hzip : (ts.zip rs).map Prod.fst = ts := List.map_fst_zip (Nat.le_of_eq h.length_eq)
  have hsublist : (freeIdentifiers ts rs).Sublist ((ts.zip rs).map Prod.fst) :=
    List.filter_sublist.map Prod.fst
  rwa [hzip] at hsublist

/-- The words of builtin types are the types. -/
theorem types_eq (h : Serves ts rs) : ts.filterMap Token.type? = rs.filterMap Role.type? := by
  induction h with
  | nil => rfl
  | @cons t r ts rs hfits _ ih =>
    cases r with
    | plain => rw [List.filterMap_cons_none hfits.2, ih, List.filterMap_cons_none rfl]
    | word text =>
      have htype : t.type? = none := by rw [Token.type?, hfits.1]
      rw [List.filterMap_cons_none htype, ih, List.filterMap_cons_none rfl]
    | name i =>
      obtain rfl := hfits
      rw [List.filterMap_cons_none rfl, ih, List.filterMap_cons_none rfl]
    | builtin type =>
      have htype : t.type? = some type := by
        rw [Token.type?, (hfits : t.lexeme = .keyword (.type type))]
      rw [List.filterMap_cons_some htype, ih]
      rfl

end Serves

/-! ## What a tree mentions -/

namespace Mention

/-- The name that is mentioned, by itself or as a type. -/
def ident? : Mention → Option Ident
  | .ident i | .type (.named i) => some i
  | .type (.builtin _) => none

/-- The builtin type that is mentioned. -/
def builtin? : Mention → Option BuiltinType
  | .type (.builtin word) => some word
  | .ident _ | .type (.named _) => none

end Mention

/-- The mentions go with the roles : they come in the order of the roles, but for the type of a
declaration, which stands before the name and is mentioned after it. -/
inductive Recounts : List Mention → List Role → Prop
  | nil : Recounts [] []
  | plain {ms : List Mention} {rs : List Role} (h : Recounts ms rs) : Recounts ms (.plain :: rs)
  | word {ms : List Mention} {rs : List Role} (text : String) (h : Recounts ms rs) :
      Recounts ms (.word text :: rs)
  | named {ms : List Mention} {rs : List Role} (type : Option TypeRef) (i : Ident)
      (h : Recounts ms rs) :
      Recounts (.ident i :: (TypeRef.mentions? type ++ ms)) (TypeRef.roles type ++ .name i :: rs)

namespace Recounts

variable {ms ms' : List Mention} {rs rs' : List Role}

/-- Mentions in sequence go with roles in sequence. -/
theorem append (h : Recounts ms rs) (h' : Recounts ms' rs') : Recounts (ms ++ ms') (rs ++ rs') := by
  induction h with
  | nil => exact h'
  | plain _ ih => exact ih.plain
  | word text _ ih => exact ih.word text
  | named type i _ ih => simpa using ih.named type i

theorem closed (h : Recounts ms rs) : Recounts ms (rs ++ [.plain]) := by
  simpa using h.append nil.plain

theorem single (i : Ident) : Recounts [.ident i] [.name i] := nil.named none i

end Recounts

mutual

/-- An expression is visited in the order in which it is written. -/
theorem Expr.recounts : ∀ e : Expr, Recounts e.mentions e.roles
  | .literal .. => Recounts.nil.plain
  | .name i => .single i
  | .paren inner _ => inner.recounts.closed.plain
  | .unary op operand _ => by
    rw [Expr.roles]
    split
    · exact operand.recounts.closed
    · exact operand.recounts.plain
  | .binary _ lhs rhs _ => lhs.recounts.append rhs.recounts.plain
  | .ternary c a b _ => by
    rw [Expr.mentions, List.append_assoc]
    exact c.recounts.append (a.recounts.append b.recounts.plain).plain
  | .member object field _ => object.recounts.append (Recounts.single field).plain
  | .subscript object index _ => object.recounts.append index.recounts.closed.plain
  | .call callee args _ => callee.recounts.append (Expr.recounts_args args).closed.plain

/-- Arguments are visited one after the other. -/
theorem Expr.recounts_args : ∀ es : List Expr, Recounts (Expr.mentionsAll es) (Expr.argRoles es)
  | [] => .nil
  | [e] => by simpa [Expr.mentionsAll, Expr.argRoles] using e.recounts
  | e :: next :: rest => e.recounts.append (Expr.recounts_args (next :: rest)).plain

end

theorem Expr.recounts_opt (e : Option Expr) : Recounts (Expr.mentions? e) (Expr.roles? e) := by
  cases e with
  | none => exact .nil
  | some e => exact e.recounts

/-- A variable is visited by its name, then its type, then its initial value. -/
theorem Variable.recounts (v : Variable) : Recounts v.mentions v.roles := by
  have hinit : Recounts (Expr.mentions? v.init) (Expr.initRoles v.init) := by
    cases v.init with
    | none => exact .nil
    | some e => exact e.recounts.plain
  exact (hinit.closed.named v.type v.ident).word _

/-- A parameter has no initial value. -/
theorem Variable.recounts_param {v : Variable} (h : v.WellFormedParam) :
    Recounts v.mentions v.paramRoles := by
  have hname := Recounts.nil.named v.type v.ident
  rw [Variable.mentions, h.2]
  exact hname

theorem Variable.recounts_params : ∀ {vs : List Variable}, (∀ v ∈ vs, v.WellFormedParam) →
    Recounts (vs.flatMap Variable.mentions) (Variable.paramsRoles vs)
  | [], _ => .nil
  | [v], h => by
    have hv := Variable.recounts_param (List.forall_mem_singleton.1 h)
    simpa [Variable.paramsRoles] using hv
  | v :: next :: rest, h => by
    obtain ⟨hv, hrest⟩ := List.forall_mem_cons.1 h
    exact (Variable.recounts_param hv).append (Variable.recounts_params hrest).plain

mutual

/-- A statement is visited in the order in which it is written, but for types. -/
theorem Stmt.recounts : ∀ s : Stmt, s.WellFormed → Recounts s.mentions s.roles
  | .expr e _, _ => e.recounts.closed
  | .decl d _, h => d.recounts h
  | .block b, h => b.recounts h
  | .ifElse c a b _, h => by
    rw [Stmt.mentions, List.append_assoc]
    exact (c.recounts.append
      ((a.recounts h.2.1).append (Stmt.recounts_else b h.2.2.1)).plain).plain.word _
  | .whileDo c body _, h => (c.recounts.append (body.recounts h.2).plain).plain.word _
  | .doWhile body c _, h => by
    have hc : Recounts c.mentions (c.roles ++ [.plain, .plain]) := by
      simpa using c.recounts.closed.closed
    exact ((body.recounts h.1).append (hc.plain.word _)).word _
  | .forLoop init c step body _ _, h => by
    rw [Stmt.mentions, List.append_assoc, List.append_assoc]
    have hstep := (Expr.recounts_opt step).append (body.recounts h.2.2.2).plain
    exact ((Stmt.recounts_init init h.1).append
      ((Expr.recounts_opt c).append hstep.plain)).plain.word _
  | .switch subject body _, h => (subject.recounts.append (body.recounts h.2).plain).plain.word _
  | .caseLabel value _, _ => value.recounts.closed.word _
  | .defaultLabel _, _ | .continue _, _ | .break _, _ => Recounts.nil.plain.word _
  | .return value _, _ => (Expr.recounts_opt value).closed.word _

theorem Stmt.recounts_else : ∀ s : Option Stmt, Stmt.OptWellFormed s →
    Recounts (Stmt.mentions? s) (Stmt.elseRoles s)
  | none, _ => .nil
  | some s, h => (s.recounts h).word _

/-- The first part of a `for` loop is visited first. -/
theorem Stmt.recounts_init : ∀ s : Option Stmt, Stmt.OptWellFormed s →
    Recounts (Stmt.mentions? s) (Stmt.initRoles s)
  | none, _ => Recounts.nil.plain
  | some s, h => s.recounts h

theorem Stmt.recounts_all : ∀ ss : List Stmt, Stmt.AllWellFormed ss →
    Recounts (Stmt.mentionsAll ss) (Stmt.allRoles ss)
  | [], _ => .nil
  | s :: rest, h => (s.recounts h.1).append (Stmt.recounts_all rest h.2)

theorem Block.recounts : ∀ b : Block, b.WellFormed → Recounts b.mentions b.roles
  | ⟨stmts, _, _⟩, h => (Stmt.recounts_all stmts h).closed.plain

/-- A declaration is visited in the order in which it is written, but for types. -/
theorem Decl.recounts : ∀ d : Decl, d.WellFormed → Recounts d.mentions d.roles
  | .var v, _ => v.recounts
  | .func f, h => f.recounts h
  | .group g, h => g.recounts h

theorem Decl.recounts_all : ∀ ds : List Decl, Decl.AllWellFormed ds →
    Recounts (Decl.mentionsAll ds) (Decl.allRoles ds)
  | [], _ => .nil
  | d :: rest, h => (d.recounts h.1).append (Decl.recounts_all rest h.2)

/-- A function is visited by its name, its type, its parameters and its body. -/
theorem Func.recounts : ∀ f : Func, f.WellFormed → Recounts f.mentions f.roles
  | ⟨_, ident, type, params, body, _, _, _⟩, h => by
    have hrest := (Variable.recounts_params h.1).append (body.recounts h.2).plain
    rw [Func.mentions, List.append_assoc]
    exact (hrest.plain.named type ident).word _

/-- A class or a namespace is visited by its name and then its members. -/
theorem Group.recounts : ∀ g : Group, g.WellFormed → Recounts g.mentions g.roles
  | ⟨_, _, ident, members, _, _, _, _⟩, h =>
    ((Recounts.single ident).append (Decl.recounts_all members h).closed.plain).word _

end

/-- The mentions are the names among the roles, each as often as it occurs there, and the
builtin types in order. -/
structure Visits (ms : List Mention) (rs : List Role) : Prop where
  idents : (ms.filterMap Mention.ident?).Perm (Role.idents rs)
  types : ms.filterMap Mention.builtin? = rs.filterMap Role.type?

/-- Mentions that go with roles are the names among them, in some order. -/
theorem Recounts.visits {ms : List Mention} {rs : List Role} (h : Recounts ms rs) :
    Visits ms rs := by
  induction h with
  | nil => exact ⟨.nil, rfl⟩
  | plain _ ih => exact ⟨ih.idents, ih.types⟩
  | word text _ ih => exact ⟨ih.idents, ih.types⟩
  | named type i _ ih =>
    cases type with
    | none => exact ⟨ih.idents.cons i, ih.types⟩
    | some type =>
      cases type with
      | builtin type => exact ⟨ih.idents.cons i, congrArg (type :: ·) ih.types⟩
      | named j => exact ⟨(List.Perm.swap j i _).trans ((ih.idents.cons i).cons j), ih.types⟩

/-- Well-formed statements mention just the names among their tokens. -/
theorem Stmt.visits_all (ss : List Stmt) (h : Stmt.AllWellFormed ss) :
    Visits (Stmt.mentionsAll ss) (Stmt.allRoles ss) := (Stmt.recounts_all ss h).visits

end Rill
