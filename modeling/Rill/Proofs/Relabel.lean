import Rill.Proofs.Shape

/-!
# Trees up to their labels

Besides what is written, a tree holds labels : the ranges of its nodes, the numbers of its
declarations and scopes, and its type annotations. A `Relabel` says what becomes of them, and
`Stmt.relabel` applies it to a whole tree. Two trees are the same up to ranges if their bare
forms agree (`Relabel.bare`), and the same as far as they are written if their plain forms
agree (`Relabel.plain`).

Neither the words of a tree nor its shape depends on labels (`Expr.spelling_mapRange`,
`Expr.wellShaped_mapRange`).
-/

namespace Rill

/-- What becomes of the labels of a tree. -/
structure Relabel where
  range : Range → Range
  decl : DeclId → DeclId
  scope : ScopeId → ScopeId
  type : TypeRef → Option TypeRef

/-- A name with its range changed. -/
def Ident.mapRange (f : Range → Range) (i : Ident) : Ident := ⟨i.name, f i.range⟩

/-- A type annotation with its range changed. -/
def TypeRef.mapRange (f : Range → Range) : TypeRef → TypeRef
  | .builtin type => .builtin type
  | .named ident => .named (ident.mapRange f)

namespace Relabel

/-- Forgets every range. -/
def bare : Relabel where
  range := fun _ => .unknown
  decl := id
  scope := id
  type := fun t => some (t.mapRange fun _ => .unknown)

/-- Forgets all that is not written : ranges and the numbers of declarations and scopes. -/
def plain : Relabel where
  range := fun _ => .unknown
  decl := fun _ => ⟨0⟩
  scope := fun _ => .global
  type := fun t => some (t.mapRange fun _ => .unknown)

@[simp]
theorem bare_range (r : Range) : bare.range r = .unknown := rfl

@[simp]
theorem bare_decl (id : DeclId) : bare.decl id = id := rfl

@[simp]
theorem bare_scope (id : ScopeId) : bare.scope id = id := rfl

end Relabel

mutual

/-- An expression with the ranges of its nodes changed. -/
def Expr.mapRange (f : Range → Range) : Expr → Expr
  | .literal value range => .literal value (f range)
  | .name ident => .name (ident.mapRange f)
  | .paren inner range => .paren (inner.mapRange f) (f range)
  | .unary op operand range => .unary op (operand.mapRange f) (f range)
  | .binary op lhs rhs range => .binary op (lhs.mapRange f) (rhs.mapRange f) (f range)
  | .ternary c a b range => .ternary (c.mapRange f) (a.mapRange f) (b.mapRange f) (f range)
  | .member object field range => .member (object.mapRange f) (field.mapRange f) (f range)
  | .subscript object index range => .subscript (object.mapRange f) (index.mapRange f) (f range)
  | .call callee args range => .call (callee.mapRange f) (Expr.mapRangeAll f args) (f range)

/-- Expressions with the ranges of their nodes changed. -/
def Expr.mapRangeAll (f : Range → Range) : List Expr → List Expr
  | [] => []
  | e :: rest => e.mapRange f :: Expr.mapRangeAll f rest

end

/-- An expression without its ranges. -/
def Expr.bare (e : Expr) : Expr := e.mapRange fun _ => .unknown

@[simp]
theorem Expr.mapRange_bare : Expr.mapRange Relabel.bare.range = Expr.bare := rfl

/-- A variable with its labels changed. -/
def Variable.relabel (f : Relabel) (v : Variable) : Variable where
  id := f.decl v.id
  ident := v.ident.mapRange f.range
  type := v.type.bind f.type
  init := v.init.map (Expr.mapRange f.range)
  constant := v.constant
  scope := f.scope v.scope
  range := f.range v.range

mutual

/-- A statement with its labels changed. -/
def Stmt.relabel (f : Relabel) : Stmt → Stmt
  | .expr e range => .expr (e.mapRange f.range) (f.range range)
  | .decl d range => .decl (d.relabel f) (f.range range)
  | .block b => .block (b.relabel f)
  | .ifElse c a b range =>
    .ifElse (c.mapRange f.range) (a.relabel f) (Stmt.relabel? f b) (f.range range)
  | .whileDo c body range => .whileDo (c.mapRange f.range) (body.relabel f) (f.range range)
  | .doWhile body c range => .doWhile (body.relabel f) (c.mapRange f.range) (f.range range)
  | .forLoop init c step body scope range =>
    .forLoop (Stmt.relabel? f init) (c.map (Expr.mapRange f.range))
      (step.map (Expr.mapRange f.range))
      (body.relabel f) (f.scope scope) (f.range range)
  | .switch subject body range =>
    .switch (subject.mapRange f.range) (body.relabel f) (f.range range)
  | .caseLabel value range => .caseLabel (value.mapRange f.range) (f.range range)
  | .defaultLabel range => .defaultLabel (f.range range)
  | .continue range => .continue (f.range range)
  | .break range => .break (f.range range)
  | .return value range => .return (value.map (Expr.mapRange f.range)) (f.range range)

/-- A statement that may be missing, with its labels changed. -/
def Stmt.relabel? (f : Relabel) : Option Stmt → Option Stmt
  | none => none
  | some s => some (s.relabel f)

/-- Statements with their labels changed. -/
def Stmt.relabelAll (f : Relabel) : List Stmt → List Stmt
  | [] => []
  | s :: rest => s.relabel f :: Stmt.relabelAll f rest

/-- A block with its labels changed. -/
def Block.relabel (f : Relabel) : Block → Block
  | ⟨stmts, scope, range⟩ => ⟨Stmt.relabelAll f stmts, f.scope scope, f.range range⟩

/-- A declaration with its labels changed. -/
def Decl.relabel (f : Relabel) : Decl → Decl
  | .var v => .var (v.relabel f)
  | .func d => .func (d.relabel f)
  | .group d => .group (d.relabel f)

/-- Declarations with their labels changed. -/
def Decl.relabelAll (f : Relabel) : List Decl → List Decl
  | [] => []
  | d :: rest => d.relabel f :: Decl.relabelAll f rest

/-- A function with its labels changed. -/
def Func.relabel (f : Relabel) : Func → Func
  | ⟨id, ident, type, params, body, scope, ownScope, range⟩ =>
    ⟨f.decl id, ident.mapRange f.range, type.bind f.type, params.map (Variable.relabel f),
      body.relabel f, f.scope scope, f.scope ownScope, f.range range⟩

/-- A class or a namespace with its labels changed. -/
def Group.relabel (f : Relabel) : Group → Group
  | ⟨kind, id, ident, members, membersRange, scope, ownScope, range⟩ =>
    ⟨kind, f.decl id, ident.mapRange f.range, Decl.relabelAll f members, f.range membersRange,
      f.scope scope, f.scope ownScope, f.range range⟩

end

/-- Only a declaration is relabelled to a declaration. -/
theorem Stmt.exists_decl_of_relabel {f : Relabel} {s : Stmt} {d : Decl} {range : Range}
    (h : s.relabel f = .decl d range) : ∃ d' range', s = .decl d' range' ∧ d'.relabel f = d := by
  cases s with
  | decl d' range' =>
    simp only [Stmt.relabel, Stmt.decl.injEq] at h
    exact ⟨d', range', rfl, h.1⟩
  | _ => simp only [Stmt.relabel, reduceCtorEq] at h

/-! ## Lists of trees -/

/-- Statements are relabelled one by one. -/
theorem Stmt.relabelAll_eq_map (f : Relabel) (ss : List Stmt) :
    Stmt.relabelAll f ss = ss.map (Stmt.relabel f) := by
  induction ss with
  | nil => rfl
  | cons s rest ih => rw [Stmt.relabelAll, ih, List.map_cons]

theorem Decl.relabelAll_eq_map (f : Relabel) (ds : List Decl) :
    Decl.relabelAll f ds = ds.map (Decl.relabel f) := by
  induction ds with
  | nil => rfl
  | cons d rest ih => rw [Decl.relabelAll, ih, List.map_cons]

/-! ## Expressions -/

namespace Expr

variable (f : Range → Range)

@[simp]
theorem mapRangeAll_eq_map : ∀ es : List Expr, mapRangeAll f es = es.map (mapRange f)
  | [] => rfl
  | e :: rest => by simp [mapRangeAll, mapRangeAll_eq_map rest]

section Bare

variable (r : Range)

@[simp]
theorem bare_name (i : Ident) : (name i).bare = name (i.mapRange fun _ => .unknown) := rfl

@[simp]
theorem bare_paren (e : Expr) : (paren e r).bare = paren e.bare .unknown := rfl

@[simp]
theorem bare_unary (op : UnaryOp) (e : Expr) : (unary op e r).bare = unary op e.bare .unknown := rfl

@[simp]
theorem bare_binary (op : BinaryOp) (e₁ e₂ : Expr) :
    (binary op e₁ e₂ r).bare = binary op e₁.bare e₂.bare .unknown := rfl

@[simp]
theorem bare_ternary (c e₁ e₂ : Expr) :
    (ternary c e₁ e₂ r).bare = ternary c.bare e₁.bare e₂.bare .unknown := rfl

@[simp]
theorem bare_member (e : Expr) (i : Ident) :
    (member e i r).bare = member e.bare (i.mapRange fun _ => .unknown) .unknown := rfl

@[simp]
theorem bare_subscript (e₁ e₂ : Expr) :
    (subscript e₁ e₂ r).bare = subscript e₁.bare e₂.bare .unknown := rfl

/-- The arguments of a call lose their ranges too. -/
@[simp]
theorem bare_call (e : Expr) (args : List Expr) :
    (call e args r).bare = call e.bare (args.map bare) .unknown := by
  simp only [bare, mapRange, mapRangeAll_eq_map]
  rfl

end Bare

/-- The range of an expression is changed as all others are. -/
@[simp]
theorem range_mapRange (e : Expr) : (e.mapRange f).range = f e.range := by
  cases e <;> simp [mapRange, range, Ident.mapRange]

@[simp]
theorem rule?_mapRange (e : Expr) : (e.mapRange f).rule? = e.rule? := by
  cases e <;> simp [mapRange, rule?]

@[simp]
theorem isPrefixed_mapRange (e : Expr) : (e.mapRange f).isPrefixed = e.isPrefixed := by
  cases e <;> simp [mapRange, isPrefixed]

theorem bindsAt_mapRange (e : Expr) (bound : Nat) :
    (e.mapRange f).BindsAt bound ↔ e.BindsAt bound := by
  simp [BindsAt]

theorem takesSuffix_mapRange (e : Expr) : (e.mapRange f).TakesSuffix ↔ e.TakesSuffix := by
  simp [TakesSuffix]

end Expr

mutual

/-- Ranges are not spelled. -/
@[simp]
theorem Expr.spelling_mapRange (f : Range → Range) :
    ∀ e : Expr, (e.mapRange f).spelling = e.spelling
  | .literal .. => rfl
  | .name _ => rfl
  | .paren inner _ => by simp [mapRange, spelling, inner.spelling_mapRange f]
  | .unary op operand _ => by simp [mapRange, spelling, operand.spelling_mapRange f]
  | .binary op lhs rhs _ => by
    simp [mapRange, spelling, lhs.spelling_mapRange f, rhs.spelling_mapRange f]
  | .ternary c a b _ => by
    simp [mapRange, spelling, c.spelling_mapRange f, a.spelling_mapRange f, b.spelling_mapRange f]
  | .member object field _ => by
    simp [mapRange, spelling, object.spelling_mapRange f, Ident.mapRange]
  | .subscript object index _ => by
    simp [mapRange, spelling, object.spelling_mapRange f, index.spelling_mapRange f]
  | .call callee args _ => by
    rw [mapRange, spelling, spelling, callee.spelling_mapRange f,
      Expr.argSpelling_mapRangeAll f args]

theorem Expr.argSpelling_mapRangeAll (f : Range → Range) :
    ∀ es : List Expr, Expr.argSpelling (Expr.mapRangeAll f es) = Expr.argSpelling es
  | [] => rfl
  | [e] => e.spelling_mapRange f
  | e :: next :: rest => by
    have ih := Expr.argSpelling_mapRangeAll f (next :: rest)
    simp only [Expr.mapRangeAll] at ih
    simp only [Expr.mapRangeAll, Expr.argSpelling, e.spelling_mapRange f, ih]

end

mutual

/-- Whether an expression is well shaped does not depend on ranges. -/
@[simp]
theorem Expr.wellShaped_mapRange (f : Range → Range) :
    ∀ e : Expr, (e.mapRange f).WellShaped ↔ e.WellShaped
  | .literal .. => .rfl
  | .name _ => .rfl
  | .paren inner _ => inner.wellShaped_mapRange f
  | .unary op operand _ => by simp [mapRange, WellShaped, operand.wellShaped_mapRange f]
  | .binary op lhs rhs _ => by
    simp [mapRange, WellShaped, lhs.wellShaped_mapRange f, rhs.wellShaped_mapRange f,
      bindsAt_mapRange]
  | .ternary c a b _ => by
    simp [mapRange, WellShaped, c.wellShaped_mapRange f, a.wellShaped_mapRange f,
      b.wellShaped_mapRange f, bindsAt_mapRange]
  | .member object field _ => by
    simp [mapRange, WellShaped, object.wellShaped_mapRange f, takesSuffix_mapRange]
  | .subscript object index _ => by
    simp [mapRange, WellShaped, object.wellShaped_mapRange f, index.wellShaped_mapRange f,
      takesSuffix_mapRange]
  | .call callee args _ => by
    rw [mapRange, WellShaped, WellShaped, callee.wellShaped_mapRange f, takesSuffix_mapRange,
      Expr.allWellShaped_mapRangeAll f args]

theorem Expr.allWellShaped_mapRangeAll (f : Range → Range) :
    ∀ es : List Expr, Expr.AllWellShaped (Expr.mapRangeAll f es) ↔ Expr.AllWellShaped es
  | [] => .rfl
  | e :: rest => by
    rw [Expr.mapRangeAll, Expr.AllWellShaped, Expr.AllWellShaped, e.wellShaped_mapRange f,
      Expr.allWellShaped_mapRangeAll f rest]

end

mutual

/-- Without ranges it does not matter how they were changed. -/
theorem Expr.bare_mapRange (f : Range → Range) : ∀ e : Expr, (e.mapRange f).bare = e.bare
  | .literal .. => rfl
  | .name _ => rfl
  | .paren inner _ => by simp [mapRange, inner.bare_mapRange f]
  | .unary op operand _ => by simp [mapRange, operand.bare_mapRange f]
  | .binary op lhs rhs _ => by simp [mapRange, lhs.bare_mapRange f, rhs.bare_mapRange f]
  | .ternary c a b _ => by simp [mapRange, c.bare_mapRange f, a.bare_mapRange f, b.bare_mapRange f]
  | .member object field _ => by simp [mapRange, object.bare_mapRange f, Ident.mapRange]
  | .subscript object index _ => by simp [mapRange, object.bare_mapRange f, index.bare_mapRange f]
  | .call callee args _ => by
    rw [mapRange, bare_call, bare_call, callee.bare_mapRange f, Expr.map_bare_mapRangeAll f args]

theorem Expr.map_bare_mapRangeAll (f : Range → Range) :
    ∀ es : List Expr, (Expr.mapRangeAll f es).map Expr.bare = es.map Expr.bare
  | [] => rfl
  | e :: rest => by
    rw [Expr.mapRangeAll, List.map_cons, List.map_cons, e.bare_mapRange f,
      Expr.map_bare_mapRangeAll f rest]

end

/-- Trees that differ in their ranges only are spelled alike. -/
theorem Expr.spelling_eq_of_bare {e e' : Expr} (h : e.bare = e'.bare) :
    e.spelling = e'.spelling := by
  rw [← Expr.spelling_mapRange (fun _ => .unknown) e,
    ← Expr.spelling_mapRange (fun _ => .unknown) e']
  exact congrArg Expr.spelling h

/-- Expressions that differ in ranges only are both well shaped or both not. -/
theorem Expr.wellShaped_iff_of_bare {e e' : Expr} (h : e.bare = e'.bare) :
    e.WellShaped ↔ e'.WellShaped := by
  rw [← Expr.wellShaped_mapRange (fun _ => .unknown) e,
    ← Expr.wellShaped_mapRange (fun _ => .unknown) e']
  exact iff_of_eq (congrArg Expr.WellShaped h)

end Rill
