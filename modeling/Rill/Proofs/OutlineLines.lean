import Rill.Proofs.Names
import Rill.Syntax.Outline

/-!
# The lines of an outline

An outline is written as one line for each entry, where an entry is the text as a whole, a
declaration, a statement or an expression. `Outlined.children` are the entries right below an entry,
read from the tree, and an outline has one node for each (`Outlined.outline_eq`), so that its lines
are those of the entries in preorder (`Outline.linesAt_eq`). That the lines can be told apart in the
text is a fact about labels : none holds a line feed, since literals are shown with their line feeds
escaped (`Literal.notMem_label`) and the names in a tree are identifiers of the text
(`Serves.notMem_idents`).
-/

namespace Rill

/-- What an outline has a line for. -/
inductive Outlined where
  | program (program : Program)
  | script (script : Script)
  | decl (decl : Decl)
  | stmt (stmt : Stmt)
  | expr (expr : Expr)

namespace Outlined

/-- The entries right below an entry, in the order in which they are written. Those in the braces of
a function, of a switch or of a group are right below it, and parameters are none. -/
def children : Outlined → List Outlined
  | .program p => p.decls.map .decl
  | .script s => s.stmts.map .stmt
  | .decl (.var v) => v.init.toList.map .expr
  | .decl (.func f) => f.body.stmts.map .stmt
  | .decl (.group g) => g.members.map .decl
  | .stmt (.expr e _) => [.expr e]
  | .stmt (.decl d _) => [.decl d]
  | .stmt (.block b) => b.stmts.map .stmt
  | .stmt (.ifElse c a b _) => .expr c :: .stmt a :: b.toList.map .stmt
  | .stmt (.whileDo c body _) => [.expr c, .stmt body]
  | .stmt (.doWhile body c _) => [.stmt body, .expr c]
  | .stmt (.forLoop init c step body _ _) =>
    init.toList.map .stmt ++ c.toList.map .expr ++ step.toList.map .expr ++ [.stmt body]
  | .stmt (.switch subject body _) => .expr subject :: body.stmts.map .stmt
  | .stmt (.caseLabel value _) => [.expr value]
  | .stmt (.return value _) => value.toList.map .expr
  | .stmt (.defaultLabel _) | .stmt (.continue _) | .stmt (.break _) => []
  | .expr (.literal ..) | .expr (.name _) => []
  | .expr (.paren inner _) => [.expr inner]
  | .expr (.unary _ operand _) => [.expr operand]
  | .expr (.binary _ lhs rhs _) => [.expr lhs, .expr rhs]
  | .expr (.ternary c a b _) => [.expr c, .expr a, .expr b]
  | .expr (.member object _ _) => [.expr object]
  | .expr (.subscript object index _) => [.expr object, .expr index]
  | .expr (.call callee args _) => .expr callee :: args.map .expr

/-- The range of an entry. -/
def range : Outlined → Range
  | .program p => p.range
  | .script s => s.range
  | .decl d => d.range
  | .stmt s => s.range
  | .expr e => e.range

/-- The outline of an entry. -/
def outline : Outlined → Outline
  | .program p => p.outline
  | .script s => s.outline
  | .decl d => d.outline
  | .stmt s => s.outline
  | .expr e => e.outline

end Outlined

/-- The label of the first node of an outline. -/
def Outline.label : Outline → String
  | .node label _ _ => label

/-! ## One node for each entry -/

/-- The outlines of expressions are those of one after the other. -/
theorem Expr.outlines_eq (es : List Expr) : Expr.outlines es = es.map Expr.outline := by
  induction es with
  | nil => rfl
  | cons e es ih => rw [Expr.outlines, ih, List.map_cons]

/-- The outlines of statements are those of one after the other. -/
theorem Stmt.outlines_eq (ss : List Stmt) : Stmt.outlines ss = ss.map Stmt.outline := by
  induction ss with
  | nil => rfl
  | cons s ss ih => rw [Stmt.outlines, ih, List.map_cons]

theorem Decl.outlines_eq (ds : List Decl) : Decl.outlines ds = ds.map Decl.outline := by
  induction ds with
  | nil => rfl
  | cons d ds ih => rw [Decl.outlines, ih, List.map_cons]

theorem Stmt.outline?_eq (s : Option Stmt) : Stmt.outline? s = s.toList.map Stmt.outline := by
  cases s <;> rfl

theorem Block.outlines_eq (b : Block) : b.outlines = b.stmts.map Stmt.outline := by
  obtain ⟨stmts, scope, range⟩ := b
  exact Stmt.outlines_eq stmts

namespace Outlined

/-- The label of an entry. -/
def label (n : Outlined) : String := n.outline.label

/-- An entry is outlined by one node, with the outlines of the entries right below it. -/
theorem outline_eq (n : Outlined) : n.outline = .node n.label n.range (n.children.map outline) := by
  cases n with
  | program p =>
    simp [label, outline, Program.outline, Outline.label, range, children, Decl.outlines_eq]
  | script s =>
    simp [label, outline, Script.outline, Outline.label, range, children, Stmt.outlines_eq]
  | decl d =>
    cases d with
    | var v =>
      simp [label, outline, Decl.outline, Variable.outline, Outline.label, range, Decl.range,
        children, Expr.outline?]
    | func f =>
      obtain ⟨id, ident, type, params, body, scope, own, r⟩ := f
      simp [label, outline, Decl.outline, Func.outline, Outline.label, range, Decl.range, children,
        Block.outlines_eq]
    | group g =>
      obtain ⟨kind, id, ident, members, membersRange, scope, own, r⟩ := g
      simp [label, outline, Decl.outline, Group.outline, Outline.label, range, Decl.range, children,
        Decl.outlines_eq]
  | stmt s =>
    have hstmt : outline ∘ stmt = Stmt.outline := rfl
    have hexpr : outline ∘ expr = Expr.outline := rfl
    cases s <;>
      simp [label, outline, Stmt.outline, Outline.label, range, Stmt.range, children, Expr.outline?,
      Stmt.outline?_eq, Block.outlines_eq, hstmt, hexpr]
  | expr e =>
    cases e <;>
      simp [label, outline, Expr.outline, Outline.label, range, Expr.range, children,
        Expr.outlines_eq]

/-- The outline of an entry is larger than that of one right below it. -/
theorem sizeOf_outline_lt {n c : Outlined} (h : c ∈ n.children) :
    sizeOf c.outline < sizeOf n.outline := by
  have hlt := List.sizeOf_lt_of_mem (List.mem_map_of_mem (f := outline) h)
  rw [outline_eq n, Outline.node.sizeOf_spec]
  omega

/-- Entries with their depths, each before those below it. -/
def preorder (depth : Nat) (n : Outlined) : List (Nat × Outlined) :=
  (depth, n) :: n.children.attach.flatMap fun c => c.1.preorder (depth + 1)
termination_by sizeOf n.outline
decreasing_by exact sizeOf_outline_lt c.2

/-- An entry comes first, and after it those below each of its children, one level deeper. -/
theorem preorder_eq (depth : Nat) (n : Outlined) :
    n.preorder depth = (depth, n) :: n.children.flatMap fun c => c.preorder (depth + 1) := by
  rw [preorder]
  simp

/-- The line of an entry at a depth : two blanks for each level, the label and, if it is
to be shown, the range. -/
def line (showRanges : Bool) (depth : Nat) (n : Outlined) : String :=
  String.ofList (List.replicate (2 * depth) ' ') ++ n.label ++ if showRanges then
    " <" ++ n.range.text ++ ">" else ""

end Outlined

namespace Outline

/-- The lines of outlines below each other are those of one after the other. -/
theorem childLines_eq (showRanges : Bool) (depth : Nat) (os : List Outline) :
    childLines showRanges depth os = os.flatMap (linesAt showRanges depth) := by
  induction os with
  | nil => rfl
  | cons o os ih => rw [childLines, ih, List.flatMap_cons]

theorem line_eq (showRanges : Bool) (depth : Nat) (n : Outlined) :
    line showRanges depth n.label n.range = n.line showRanges depth := by
  cases showRanges
  · exact (String.append_empty ..).symm
  · simp only [line, Outlined.line, if_true, String.append_assoc]
    rfl

/-- The lines of an outline are those of the entries, each before those below it. -/
theorem linesAt_eq (showRanges : Bool) (depth : Nat) (n : Outlined) :
    n.outline.linesAt showRanges depth =
      (n.preorder depth).map fun p => p.2.line showRanges p.1 := by
  induction depth, n using Outlined.preorder.induct with
  | case1 depth n ih =>
    have hchildren : (n.children.map Outlined.outline).flatMap (linesAt showRanges (depth + 1)) =
        n.children.flatMap fun c => (c.preorder (depth + 1)).map fun p =>
          p.2.line showRanges p.1 := by
      rw [List.flatMap_map]
      exact List.flatMap_congr fun c hc => ih ⟨c, hc⟩
    rw [Outlined.outline_eq, linesAt, line_eq, childLines_eq, hchildren, Outlined.preorder_eq,
      List.map_cons, List.map_flatMap]

end Outline

/-! ## Labels stand on one line -/

/-- Decimal digits are digits. -/
theorem notMem_toDigits {c : Char} (hc : c.isDigit = false) (n : Nat) : c ∉ Nat.toDigits 10 n := by
  intro h
  rw [Nat.isDigit_of_mem_toDigits (by decide) (by decide) h] at hc
  cases hc

theorem notMem_toString_int (i : Int) : '\n' ∉ (toString i).toList := by
  cases i with
  | ofNat n =>
    have htext : (toString (Int.ofNat n)).toList = Nat.toDigits 10 n := by simp [toString, Int.repr]
    rw [htext]
    exact notMem_toDigits (by decide) n
  | negSucc n =>
    have htext : (toString (Int.negSucc n)).toList = '-' :: Nat.toDigits 10 (n + 1) := by
      simp [toString, Int.repr]
    rw [htext]
    exact List.not_mem_cons_of_ne_of_not_mem (by decide) (notMem_toDigits (by decide) _)

namespace Text

theorem notMem_hexDigits (n : Nat) : '\n' ∉ hexDigits n := by
  induction n using Nat.strongRecOn with
  | ind n ih =>
    rw [hexDigits, Nat.toDigits_eq_if (by decide)]
    split
    · simp
    · have hrest := ih (n / 16) (by omega)
      rw [hexDigits] at hrest
      simp [hrest]

/-- A quoted character holds no line feed. -/
theorem notMem_quotedChar (quote c : Char) : '\n' ∉ quotedChar quote c := by
  have hhex := notMem_hexDigits c.toNat
  unfold quotedChar
  split
  · decide
  split
  · decide
  split
  · decide
  split
  · decide
  rename_i hc
  have hne : '\n' ≠ c := fun h => by simp [← h] at hc
  split
  · simp [hne]
  split
  · simp [hhex]
  · simp [hne]

end Text

namespace Decimal

/-- A double without an exponent is displayed on one line. -/
theorem notMem_positional (d : Digits) : ∀ piece ∈ d.positional, '\n' ∉ piece.toList := by
  have hchars : '\n' ∉ d.chars := notMem_toDigits (by decide) _
  have hzeros : ∀ n, '\n' ∉ (zeros n).toList := fun n => by simp [zeros]
  have hruns : ∀ n, ∀ piece ∈ zeroRuns n, '\n' ∉ piece.toList := by
    intro n piece hpiece
    rcases List.mem_append.1 hpiece with h | h
    · rw [List.eq_of_mem_replicate h]
      exact hzeros 64
    · split at h
      · cases h
      · rw [List.mem_singleton.1 h]
        exact hzeros _
  unfold Digits.positional
  simp only
  split
  · simp only [List.mem_append, List.mem_singleton]
    rintro piece ((rfl | h) | rfl)
    · decide
    · exact hruns _ piece h
    · simpa using hchars
  split
  · simp only [List.mem_cons, List.not_mem_nil, or_false]
    rintro piece (rfl | rfl | rfl)
    · simpa using fun h => hchars (List.mem_of_mem_take h)
    · decide
    · simpa using fun h => hchars (List.mem_of_mem_drop h)
  · simp only [List.mem_append, List.mem_singleton]
    rintro piece (rfl | h)
    · simpa using hchars
    · exact hruns _ piece h

/-- A double with an exponent is displayed on one line. -/
theorem notMem_scientific (d : Digits) : '\n' ∉ d.scientific.toList := by
  have hchars : '\n' ∉ d.chars := notMem_toDigits (by decide) _
  have hhead : '\n' ∉ d.chars.take 1 := fun h => hchars (List.mem_of_mem_take h)
  have htail : '\n' ∉ d.chars.drop 1 := fun h => hchars (List.mem_of_mem_drop h)
  have hpower := notMem_toString_int (d.point - 1)
  unfold Digits.scientific
  simp only [String.toList_append, List.mem_append, String.toList_ofList, not_or]
  refine ⟨⟨⟨hhead, ?_⟩, by decide⟩, hpower⟩
  split
  · decide
  · simpa using htail

/-- A double as a literal shows it holds no line feed. -/
theorem notMem_literal (x : Float) : '\n' ∉ (literal x).toList := by
  have hsign : ∀ negative, ∀ piece ∈ sign negative, '\n' ∉ piece.toList := by
    intro negative
    cases negative <;> simp [sign]
  have hjoin : ∀ negative ps, (∀ piece ∈ ps, '\n' ∉ piece.toList) →
      '\n' ∉ (String.join (sign negative ++ ps)).toList := by
    intro negative ps hps
    rw [String.toList_join, List.mem_flatMap]
    rintro ⟨piece, hpiece, h⟩
    rcases List.mem_append.1 hpiece with hpiece | hpiece
    · exact hsign negative piece hpiece h
    · exact hps piece hpiece h
  unfold literal
  split
  · decide
  · exact hjoin _ _ (by simp)
  split
  · exact hjoin _ _ (by simp)
  simp only
  split
  · exact hjoin _ _ (by simpa using notMem_scientific _)
  · rw [List.append_assoc]
    refine hjoin _ _ fun piece hpiece => ?_
    rcases List.mem_append.1 hpiece with hpiece | hpiece
    · exact notMem_positional _ piece hpiece
    · split at hpiece
      · rw [List.mem_singleton.1 hpiece]
        decide
      · cases hpiece

end Decimal

/-- A literal has a label of one line, since line feeds are escaped in it. -/
theorem Literal.notMem_label (l : Literal) : '\n' ∉ l.label.toList := by
  delta label
  cases l with
  | null => decide
  | bool b => cases b <;> decide
  | int i =>
    have hi := notMem_toString_int i.toInt
    simpa [toString] using hi
  | float x =>
    have hx := Decimal.notMem_literal x
    simpa [toString] using hx
  | char c =>
    have hc := Text.notMem_quotedChar '\'' c
    simpa [toString, Text.quoteChar] using hc
  | string text =>
    have hall : ∀ c ∈ text.toList, '\n' ∉ Text.quotedChar '"' c :=
      fun c _ => Text.notMem_quotedChar '"' c
    simpa [toString, Text.quoteString] using hall

/-- No operator has a line feed in it. -/
theorem BinaryOp.notMem_text (op : BinaryOp) : '\n' ∉ op.text.toList := by
  cases op with
  | assign => decide
  | compound op | logical op | compare op | arith op => cases op <;> decide

theorem UnaryOp.notMem_label (op : UnaryOp) : '\n' ∉ op.label.toList := by
  cases op with
  | pre step | post step => cases step <;> decide
  | _ => decide

/-- A type that is shown has a line feed only if its name has one. -/
theorem TypeRef.notMem_suffix {type : Option TypeRef}
    (h : ∀ i ∈ Role.idents (TypeRef.roles type), '\n' ∉ i.name.toList) :
    '\n' ∉ (TypeRef.suffix type).toList := by
  cases type with
  | none => decide
  | some type =>
    cases type with
    | builtin type => cases type <;> decide
    | named i =>
      have hi := h i List.mem_cons_self
      simpa [suffix, name, toString] using hi

theorem Variable.notMem_label {v : Variable} (hname : '\n' ∉ v.ident.name.toList)
    (htype : '\n' ∉ (TypeRef.suffix v.type).toList) : '\n' ∉ v.label.toList := by
  delta label
  cases hconst : v.constant <;> simpa [toString, hconst] using ⟨hname, htype⟩

theorem notMem_intercalate {c : Char} {sep : String} {texts : List String} (hsep : c ∉ sep.toList)
    (h : ∀ text ∈ texts, c ∉ text.toList) : c ∉ (sep.intercalate texts).toList := by
  rw [String.toList_intercalate]
  induction texts with
  | nil => exact List.not_mem_nil
  | cons text rest ih =>
    have htext := h text List.mem_cons_self
    cases rest with
    | nil => simpa using htext
    | cons next rest =>
      have hrest := ih fun t ht => h t (List.mem_cons_of_mem _ ht)
      simp only [List.map_cons] at hrest ⊢
      rw [List.intercalate_cons_cons]
      simp only [List.mem_append, not_or]
      exact ⟨⟨htext, hsep⟩, hrest⟩

/-- The label of a function has a line feed only if one of its names has one. -/
theorem Func.notMem_label {f : Func} (h : ∀ i ∈ Role.idents f.roles, '\n' ∉ i.name.toList) :
    '\n' ∉ f.label.toList := by
  obtain ⟨id, ident, type, params, body, scope, own, range⟩ := f
  simp only [Func.roles, Role.idents_word, Role.idents_append, Role.idents_name, Role.idents_plain,
    Parse.idents_params, List.mem_append, List.mem_cons, List.mem_flatMap] at h
  have hname : '\n' ∉ ident.name.toList := h ident (.inr (.inl rfl))
  have htype : '\n' ∉ (TypeRef.suffix type).toList :=
    TypeRef.notMem_suffix fun i hi => h i (.inl hi)
  have hparams : '\n' ∉ (", ".intercalate (params.map (·.ident.name))).toList := by
    refine notMem_intercalate (by decide) (List.forall_mem_map.2 fun v hv => ?_)
    exact h v.ident (.inr (.inr (.inl ⟨v, hv, by simp [Variable.paramRoles]⟩)))
  have htext : (Func.label ⟨id, ident, type, params, body, scope, own, range⟩).toList =
      "FunctionDecl ".toList ++
      (ident.name.toList ++ '(' :: ((", ".intercalate (params.map (·.ident.name))).toList ++
        ')' :: (TypeRef.suffix type).toList)) := by
    delta label
    simp [toString]
  rw [htext]
  simp only [List.mem_append, List.mem_cons, not_or]
  exact ⟨by decide, hname, by decide, hparams, by decide, htype⟩

namespace Outlined

/-- The roles of the tokens of an entry. -/
def roles : Outlined → List Role
  | .program p => Decl.allRoles p.decls
  | .script s => Stmt.allRoles s.stmts
  | .decl d => d.roles
  | .stmt s => s.roles
  | .expr e => e.roles

/-- If no name in an entry has a line feed, then its label has none. -/
theorem notMem_label {n : Outlined} (h : ∀ i ∈ Role.idents n.roles, '\n' ∉ i.name.toList) :
    '\n' ∉ n.label.toList := by
  cases n with
  | program p =>
    have hlabel : label (.program p) = "Unit" := rfl
    rw [hlabel]
    decide
  | script s =>
    have hlabel : label (.script s) = "Source" := rfl
    rw [hlabel]
    decide
  | decl d =>
    cases d with
    | var v =>
      refine Variable.notMem_label (h v.ident ?_) (TypeRef.notMem_suffix fun i hi => h i ?_)
      · simp [roles, Decl.roles, Variable.roles]
      · simp [roles, Decl.roles, Variable.roles, hi]
    | func f =>
      have hlabel : label (.decl (.func f)) = f.label := by
        obtain ⟨id, ident, type, params, body, scope, own, range⟩ := f
        rfl
      rw [hlabel]
      exact Func.notMem_label fun i hi => h i (by rwa [roles, Decl.roles])
    | group g =>
      obtain ⟨kind, id, ident, members, membersRange, scope, own, range⟩ := g
      have hname := h ident (by simp [roles, Decl.roles, Group.roles])
      have hlabel :
          label (.decl (.group ⟨kind, id, ident, members, membersRange, scope, own, range⟩)) =
          Group.label ⟨kind, id, ident, members, membersRange, scope, own, range⟩ := rfl
      rw [hlabel]
      cases kind <;> simpa [Group.label, toString] using hname
  | stmt s =>
    have hlabel : label (.stmt s) = s.kind.label := by cases s <;> rfl
    rw [hlabel]
    cases s.kind <;> decide
  | expr e =>
    cases e with
    | literal value range => exact value.notMem_label
    | name i =>
      have hname := h i (by simp [roles, Expr.roles])
      simpa [label, outline, Expr.outline, Outline.label, toString] using hname
    | unary op operand range =>
      have hop := op.notMem_label
      simpa [label, outline, Expr.outline, Outline.label, toString] using hop
    | binary op lhs rhs range =>
      have hop := op.notMem_text
      simpa [label, outline, Expr.outline, Outline.label, toString] using hop
    | member object field range =>
      have hname := h field (by simp [roles, Expr.roles])
      simpa [label, outline, Expr.outline, Outline.label, toString] using hname
    | call callee args range =>
      have hcount : '\n' ∉ Nat.toDigits 10 args.length := notMem_toDigits (by decide) _
      simpa [label, outline, Expr.outline, Outline.label, toString] using hcount
    | _ => simp [label, outline, Expr.outline, Outline.label]

section

variable {c : Outlined} {i : Ident} (hi : i ∈ Role.idents c.roles)

include hi

/-- The names of an entry below statements are among those of the statements. -/
theorem mem_idents_stmts {ss : List Stmt} (hc : c ∈ ss.map stmt) :
    i ∈ Role.idents (Stmt.allRoles ss) := by
  obtain ⟨s, hs, rfl⟩ := List.mem_map.1 hc
  rw [Parse.idents_stmts]
  exact List.mem_flatMap.2 ⟨s, hs, hi⟩

theorem mem_idents_decls {ds : List Decl} (hc : c ∈ ds.map decl) :
    i ∈ Role.idents (Decl.allRoles ds) := by
  obtain ⟨d, hd, rfl⟩ := List.mem_map.1 hc
  rw [Parse.idents_decls]
  exact List.mem_flatMap.2 ⟨d, hd, hi⟩

/-- The names of an entry below a block are among those of the block. -/
theorem mem_idents_block {b : Block} (hc : c ∈ b.stmts.map stmt) : i ∈ Role.idents b.roles := by
  obtain ⟨stmts, scope, range⟩ := b
  simp [Block.roles, mem_idents_stmts hi hc]

theorem mem_idents_expr? {e : Option Expr} (hc : c ∈ e.toList.map expr) :
    i ∈ Role.idents (Expr.roles? e) := by
  cases e with
  | none => cases hc
  | some e =>
    obtain rfl := List.mem_singleton.1 hc
    exact hi

/-- The names of an entry right below an expression are among those of the expression. -/
theorem mem_idents_of_expr {e : Expr} (hc : c ∈ children (.expr e)) : i ∈ Role.idents e.roles := by
  have hself : ∀ {e}, c = .expr e → i ∈ Role.idents e.roles := fun h => by rwa [h] at hi
  cases e with
  | unary op operand range =>
    have hoperand := hself (List.mem_singleton.1 hc)
    cases hop : op.isPost <;> simp [Expr.roles, hop, hoperand]
  | call callee args range =>
    rcases List.mem_cons.1 hc with h | h
    · simp [Expr.roles, hself h]
    · obtain ⟨e, he, rfl⟩ := List.mem_map.1 h
      have hargs : i ∈ Role.idents (Expr.argRoles args) := by
        rw [Parse.idents_args]
        exact List.mem_flatMap.2 ⟨e, he, hi⟩
      simp [Expr.roles, hargs]
  | literal value range => cases hc
  | name ident => cases hc
  | paren inner range | member object field range =>
    have hinner := hself (List.mem_singleton.1 hc)
    simp [Expr.roles, hinner]
  | binary op lhs rhs range | subscript lhs rhs range =>
    simp only [children, List.mem_cons, List.not_mem_nil, or_false] at hc
    rcases hc with h | h <;> simp [Expr.roles, hself h]
  | ternary c a b range =>
    simp only [children, List.mem_cons, List.not_mem_nil, or_false] at hc
    rcases hc with h | h | h <;> simp [Expr.roles, hself h]

/-- The names of an entry right below a declaration are among those of the declaration. -/
theorem mem_idents_of_decl {d : Decl} (hc : c ∈ children (.decl d)) : i ∈ Role.idents d.roles := by
  cases d with
  | var v =>
    obtain ⟨id, ident, type, init, constant, scope, range⟩ := v
    have hvalue : i ∈ Role.idents (Expr.roles? init) := mem_idents_expr? hi hc
    cases init with
    | none => cases hvalue
    | some e =>
      simp [Decl.roles, Variable.roles, Expr.initRoles, show i ∈ Role.idents e.roles from hvalue]
  | func f =>
    obtain ⟨id, ident, type, params, body, scope, own, range⟩ := f
    simp [Decl.roles, Func.roles, mem_idents_block hi hc]
  | group g =>
    obtain ⟨kind, id, ident, members, membersRange, scope, own, range⟩ := g
    simp [Decl.roles, Group.roles, mem_idents_decls hi hc]

/-- The names of an entry right below a statement are among those of the statement. -/
theorem mem_idents_of_stmt {s : Stmt} (hc : c ∈ children (.stmt s)) : i ∈ Role.idents s.roles := by
  have hstmt : ∀ {s}, c = .stmt s → i ∈ Role.idents s.roles := fun h => by rwa [h] at hi
  have hexpr : ∀ {e}, c = .expr e → i ∈ Role.idents e.roles := fun h => by rwa [h] at hi
  cases s with
  | expr e range | caseLabel e range => simp [Stmt.roles, hexpr (List.mem_singleton.1 hc)]
  | decl d range =>
    obtain rfl := List.mem_singleton.1 hc
    rw [Stmt.roles]
    exact hi
  | block b => simpa [Stmt.roles] using mem_idents_block hi hc
  | whileDo c body range =>
    simp only [children, List.mem_cons, List.not_mem_nil, or_false] at hc
    rcases hc with h | h
    · simp [Stmt.roles, hexpr h]
    · simp [Stmt.roles, hstmt h]
  | doWhile body c range =>
    simp only [children, List.mem_cons, List.not_mem_nil, or_false] at hc
    rcases hc with h | h
    · simp [Stmt.roles, hstmt h]
    · simp [Stmt.roles, hexpr h]
  | ifElse c a b range =>
    simp only [children, List.mem_cons] at hc
    rcases hc with h | h | h
    · simp [Stmt.roles, hexpr h]
    · simp [Stmt.roles, hstmt h]
    · cases b with
      | none => cases h
      | some b => simp [Stmt.roles, Stmt.elseRoles, hstmt (List.mem_singleton.1 h)]
  | forLoop init c step body scope range =>
    simp only [children, List.mem_append, List.mem_singleton] at hc
    rcases hc with ((h | h) | h) | h
    · cases init with
      | none => cases h
      | some init => simp [Stmt.roles, Stmt.initRoles, hstmt (List.mem_singleton.1 h)]
    · simp [Stmt.roles, mem_idents_expr? hi h]
    · simp [Stmt.roles, mem_idents_expr? hi h]
    · simp [Stmt.roles, hstmt h]
  | «switch» subject body range =>
    rcases List.mem_cons.1 hc with h | h
    · simp [Stmt.roles, hexpr h]
    · simp [Stmt.roles, mem_idents_block hi h]
  | «return» value range => simp [Stmt.roles, mem_idents_expr? hi hc]
  | defaultLabel range | «continue» range | «break» range => cases hc

end

/-- The names in an entry are among those in the entry that it is right below. -/
theorem idents_subset {n c : Outlined} (hc : c ∈ n.children) :
    Role.idents c.roles ⊆ Role.idents n.roles := by
  intro i hi
  cases n with
  | program p => exact mem_idents_decls hi hc
  | script s => exact mem_idents_stmts hi hc
  | decl d => exact mem_idents_of_decl hi hc
  | stmt s => exact mem_idents_of_stmt hi hc
  | expr e => exact mem_idents_of_expr hi hc

/-- If no name of a tree has a line feed, no label of its outline has one. -/
theorem notMem_label_of_preorder {n : Outlined}
    (h : ∀ i ∈ Role.idents n.roles, '\n' ∉ i.name.toList) (depth : Nat) :
    ∀ p ∈ n.preorder depth, '\n' ∉ p.2.label.toList := by
  induction depth, n using preorder.induct with
  | case1 depth n ih =>
    rw [preorder_eq]
    intro p hp
    rcases List.mem_cons.1 hp with rfl | hp
    · exact notMem_label h
    · obtain ⟨c, hc, hp⟩ := List.mem_flatMap.1 hp
      exact ih ⟨c, hc⟩ (fun i hi => h i (idents_subset hc hi)) p hp

end Outlined

/-! ## Names stand on one line -/

open Scan in
/-- An identifier holds no line feed. -/
theorem notMem_of_scan {cs : List Char} {name : String} {n : Nat}
    (h : scan cs = some (.lexeme (.identifier name) n)) : '\n' ∉ name.toList := by
  have htext : name = String.ofList (cs.take n) := text_of_scan h nofun nofun
  cases cs with
  | nil => simp [scan] at h
  | cons c cs =>
    have hcase := scan_cons_iff.1 h
    generalize hr : Scan.lexeme (.identifier name) n = r at hcase
    cases hcase with
    | word hstart =>
      obtain ⟨-, rfl⟩ := Scan.lexeme.inj hr
      have htake : cs.take (cs.takeWhile inWord).length = cs.takeWhile inWord :=
        (List.prefix_iff_eq_take.1 (List.takeWhile_prefix inWord)).symm
      rw [htext, String.toList_ofList, Nat.add_comm, List.take_succ_cons, htake]
      intro hmem
      rcases List.mem_cons.1 hmem with rfl | hmem
      · exact absurd hstart (by decide)
      · exact absurd (List.all_eq_true.1 List.all_takeWhile _ hmem) (by decide)
    | string _ =>
      unfold scanString at hr
      split at hr <;> cases hr
    | char _ =>
      obtain ⟨value, hvalue⟩ := scanChar_eq_lexeme hr.symm
      cases hvalue
    | _ => cases hr

/-- A name that is a token of a text has no line feed. -/
theorem Buffer.notMem_of_token {b : Buffer} {ts : List Token} (h : b.tokens = .ok ts) {i : Ident}
    (hi : i.token ∈ ts) :
    '\n' ∉ i.name.toList := by
  obtain ⟨us, c', error, hwalk, -, hitems⟩ := b.exists_walk_items
  obtain ⟨before, d, n, -, hscan, -⟩ :=
    (Cursor.at_start b).exists_scan hwalk i.token ((sublist_of_tokens hitems h).subset hi)
  exact notMem_of_scan hscan

/-- The names of a text whose tokens play roles. -/
theorem Serves.notMem_idents {b : Buffer} {ts : List Token} {rs : List Role} (h : Serves ts rs)
    (hts : b.tokens = .ok ts) : ∀ i ∈ Role.idents rs, '\n' ∉ i.name.toList := by
  intro i hi
  have hfree : i.token ∈ freeIdentifiers ts rs := h.freeIdentifiers_eq ▸ List.mem_map_of_mem hi
  exact Buffer.notMem_of_token hts (h.freeIdentifiers_sublist.subset hfree)

/-! ## Texts -/

/-- Lines without a line feed, each with one at its end, are the pieces between line feeds. -/
theorem splitOn_lines {lines : List (List Char)} (h : ∀ l ∈ lines, '\n' ∉ l) :
    (lines.flatMap (· ++ ['\n'])).splitOn '\n' = lines ++ [[]] := by
  induction lines with
  | nil => exact List.splitOn_nil _
  | cons l lines ih =>
    have hl := h l List.mem_cons_self
    rw [List.flatMap_cons, List.append_assoc, List.singleton_append,
      List.splitOn_append_cons_self_of_not_mem hl,
      ih fun l' hl' => h l' (List.mem_cons_of_mem _ hl'), List.cons_append]

/-- A line without the range at its end, which starts with the last `<` and has a
blank before it. -/
def withoutRange (line : List Char) : List Char :=
  ((line.reverse.dropWhile (· != '<')).drop 2).reverse

/-- The range is taken off at the last `<`. -/
theorem withoutRange_append {l r : List Char} (h : '<' ∉ r) :
    withoutRange (l ++ (' ' :: '<' :: r)) = l := by
  have hdrop : (r.reverse ++ '<' :: ' ' :: l.reverse).dropWhile (· != '<') =
      '<' :: ' ' :: l.reverse := by
    rw [List.dropWhile_append_of_pos]
    · simp
    · intro c hc
      have hne : c ≠ '<' := by
        rintro rfl
        exact h (List.mem_reverse.1 hc)
      simpa using hne
  simp [withoutRange, hdrop]

/-- The text of a range consists of digits, colons and a dash. -/
theorem Range.notMem_text {c : Char} (hdigit : c.isDigit = false) (hmark : c ≠ ':')
    (hmark' : c ≠ '-') (r : Range) :
    c ∉ r.text.toList := by
  have hnumber := notMem_toDigits hdigit
  simp [Range.text, Location.text, toString, hnumber, hmark, hmark']

namespace Outlined

/-- A line has a line feed in it only if its label has one. -/
theorem notMem_line {n : Outlined} (h : '\n' ∉ n.label.toList) (showRanges : Bool) (depth : Nat) :
    '\n' ∉ (n.line showRanges depth).toList := by
  have hrange : '\n' ∉ n.range.text.toList :=
    n.range.notMem_text (by decide) (by decide) (by decide)
  cases showRanges <;> simp [line, h, hrange]

/-- A line with its range taken off is the line without a range. -/
theorem withoutRange_line (n : Outlined) (depth : Nat) :
    withoutRange (n.line true depth).toList = (n.line false depth).toList := by
  have hrange : '<' ∉ n.range.text.toList ++ ['>'] := by
    have htext := n.range.notMem_text (c := '<') (by decide) (by decide) (by decide)
    simpa using htext
  have hline : (n.line true depth).toList =
      (n.line false depth).toList ++ (' ' :: '<' :: (n.range.text.toList ++ ['>'])) := by
    simp [line]
  rw [hline, withoutRange_append hrange]

/-- What the text of an outline is, with ranges and without : one line for each entry, in preorder,
with a line feed at its end and none in its label. The lines are the pieces between line feeds, and
those with ranges less the ranges are those without. -/
structure WrittenAs (root : Outlined) (text : Bool → String) : Prop where
  text_eq : ∀ showRanges, text showRanges =
    String.join ((root.preorder 0).map fun p => p.2.line showRanges p.1 ++ "\n")
  labels : ∀ p ∈ root.preorder 0, '\n' ∉ p.2.label.toList
  lines : ∀ showRanges, (text showRanges).toList.splitOn '\n' =
    ((root.preorder 0).map fun p => (p.2.line showRanges p.1).toList) ++ [[]]
  ranges : ((text true).toList.splitOn '\n').map withoutRange = (text false).toList.splitOn '\n'

/-- The outline of a tree without line feeds in its names is written line by line. -/
theorem writtenAs {root : Outlined} (h : ∀ i ∈ Role.idents root.roles, '\n' ∉ i.name.toList) :
    root.WrittenAs fun showRanges => root.outline.text showRanges := by
  have hlabels := notMem_label_of_preorder h 0
  have htext : ∀ showRanges, root.outline.text showRanges =
      String.join ((root.preorder 0).map fun p => p.2.line showRanges p.1 ++ "\n") := by
    intro showRanges
    rw [Outline.text, Outline.lines, Outline.linesAt_eq, List.map_map]
    rfl
  have hlines : ∀ showRanges, (root.outline.text showRanges).toList.splitOn '\n' =
      ((root.preorder 0).map fun p => (p.2.line showRanges p.1).toList) ++ [[]] := by
    intro showRanges
    rw [htext, String.toList_join, List.flatMap_map, ← splitOn_lines, List.flatMap_map]
    · simp
    · exact List.forall_mem_map.2 fun p hp => notMem_line (hlabels p hp) showRanges p.1
  refine ⟨htext, hlabels, hlines, ?_⟩
  have hranges : (root.preorder 0).map (withoutRange ∘ fun p => (p.2.line true p.1).toList) =
      (root.preorder 0).map fun p => (p.2.line false p.1).toList := by
    refine List.map_congr_left fun p _ => ?_
    rw [Function.comp_apply, withoutRange_line]
  rw [hlines, hlines, List.map_append, List.map_map, hranges]
  rfl

end Outlined

/-- The outline of a text that is read as a program or as a script is written one line
for each entry. -/
theorem Buffer.outline_lines (b : Buffer) :
    (∀ p, b.program = .ok p →
      (Outlined.program p).WrittenAs fun showRanges => p.outline.text showRanges) ∧
      ∀ s, b.script = .ok s →
      (Outlined.script s).WrittenAs fun showRanges => s.outline.text showRanges := by
  constructor
  · intro p h
    obtain ⟨ts, hts, hread, -⟩ := tokens_of_eval Parse.takes_program h
    have hserves := Decl.serves_of_allReadFrom hread (inOrder_of_tokens hts)
    exact Outlined.writtenAs (hserves.notMem_idents hts)
  · intro s h
    obtain ⟨ts, hts, hread, -⟩ := allReadFrom_of_script h
    have hserves := Stmt.serves_of_allReadFrom hread (inOrder_of_tokens hts)
    exact Outlined.writtenAs (hserves.notMem_idents hts)

/-- A namespace with a text that holds a line feed, and a function that assigns one,
before a call. -/
theorem Buffer.outline_lines_of_escapes :
    (∃ p, (anonymous "namespace N \x7b var T s = \"a\\nb\"; \x7d").program = .ok p ∧
      p.outline.lines false =
        ["Unit", "  NamespaceDecl N", "    VariableDecl s: T", "      StringLiteral \"a\\nb\""] ∧
      (Outlined.program p).WrittenAs fun showRanges => p.outline.text showRanges) ∧
    ∃ s, (anonymous "func f(x) \x7b x = '\\n'; \x7d f(1);").script = .ok s ∧
      s.outline.lines true =
        ["Source <1:1-1:30>", "  DeclStmt <1:1-1:24>", "    FunctionDecl f(x) <1:1-1:24>",
        "      ExprStmt <1:13-1:22>", "        BinaryExpr = <1:13-1:21>",
          "          Identifier x <1:13-1:14>",
        "          CharLiteral '\\n' <1:17-1:21>", "  ExprStmt <1:25-1:30>",
          "    FunctionCall (1 args) <1:25-1:29>",
        "      Identifier f <1:25-1:26>", "      IntLiteral 1 <1:27-1:28>"] ∧
      (Outlined.script s).WrittenAs fun showRanges => s.outline.text showRanges := by
  constructor
  · have hlines : ((anonymous "namespace N \x7b var T s = \"a\\nb\"; \x7d").program.map
        fun p => p.outline.lines false).toOption =
        some ["Unit", "  NamespaceDecl N", "    VariableDecl s: T",
            "      StringLiteral \"a\\nb\""] := by
      decide +kernel
    cases hp : (anonymous "namespace N \x7b var T s = \"a\\nb\"; \x7d").program with
    | error e => simp [hp, Except.map, Except.toOption] at hlines
    | ok p =>
      simp only [hp, Except.map, Except.toOption, Option.some.injEq] at hlines
      exact ⟨p, rfl, hlines, (outline_lines _).1 p hp⟩
  · have hlines : ((anonymous "func f(x) \x7b x = '\\n'; \x7d f(1);").script.map
        fun s => s.outline.lines true).toOption =
        some ["Source <1:1-1:30>", "  DeclStmt <1:1-1:24>", "    FunctionDecl f(x) <1:1-1:24>",
          "      ExprStmt <1:13-1:22>", "        BinaryExpr = <1:13-1:21>",
          "          Identifier x <1:13-1:14>", "          CharLiteral '\\n' <1:17-1:21>",
            "  ExprStmt <1:25-1:30>", "    FunctionCall (1 args) <1:25-1:29>",
          "      Identifier f <1:25-1:26>", "      IntLiteral 1 <1:27-1:28>"] := by decide +kernel
    cases hs : (anonymous "func f(x) \x7b x = '\\n'; \x7d f(1);").script with
    | error e => simp [hs, Except.map, Except.toOption] at hlines
    | ok s =>
      simp only [hs, Except.map, Except.toOption, Option.some.injEq] at hlines
      exact ⟨s, rfl, hlines, (outline_lines _).2 s hs⟩

end Rill
