import Rill.Grammar.Program
import Rill.Proofs.Agreement
import Rill.Proofs.Closure

/-!
# Programs that are written in the same words

What `Rill.Proofs.Agreement` shows of expressions holds of statements, and so of whole programs and
scripts : two texts whose tokens say the same are read as the same tree up to ranges, with the same
names, scopes and declaration numbers, or are refused for the same reason
(`Buffer.program_bare_of_words`, `Buffer.script_bare_of_words`).
-/

namespace Rill

/-- Statements that differ in ranges only. -/
abbrev SameStmt (s s' : Stmt) : Prop := s.relabel .bare = s'.relabel .bare

/-- Declarations that differ in ranges only. -/
abbrev SameDecl (d d' : Decl) : Prop := d.relabel .bare = d'.relabel .bare

/-- What forms call back for agrees on parsers with at most `m` items left : expressions, and
statements once something was taken. -/
structure Nested.Agree (k k' : Nested) (m : Nat) : Prop where
  expr {q q' : Parser} (h : q.Alike q') (hm : q.left ≤ m) :
    Parse.Agree k.expr k'.expr q q' (q.After 1 Parse.SameExpr)
  stmt {q q' : Parser} (h : q.Alike q') (hm : q.left < m) :
    Parse.Agree k.stmt k'.stmt q q' (q.After 1 SameStmt)
  fuel : m ≤ k.fuel
  fuel' : m ≤ k'.fuel

namespace Parse

variable {k k' : Nested} {m : Nat} {p p' : Parser}

/-! ## Parts of statements -/

/-- Alike parsers read the same type before a name, or none. -/
theorem agree_typeRef? (h : p.Alike p') :
    Agree typeRef? typeRef? p p'
      (p.After 0 fun t t' => t.bind Relabel.bare.type = t'.bind Relabel.bare.type) := by
  unfold typeRef?
  refine Agree.get ?_
  obtain ⟨hc, hc'⟩ | ⟨l, r, r', hc, hc'⟩ := h.current_cases
  · simp only [hc, hc']
    exact Agree.pure ⟨rfl, h, Nat.le_refl _⟩
  · simp only [hc, hc']
    cases l with
    | keyword word =>
      cases word with
      | type type =>
        refine (agree_advance h hc hc').bind ?_
        rintro _ _ q q' ⟨-, hq, hleft⟩
        exact Agree.pure ⟨rfl, hq, by omega⟩
      | _ => exact Agree.pure ⟨rfl, h, Nat.le_refl _⟩
    | identifier name =>
      refine Agree.ite h.identifierFollows (fun _ => ?_) fun _ => ?_
      · refine (agree_identifier h).bind ?_
        rintro i i' q q' ⟨hi, hq, hleft⟩
        refine Agree.pure ⟨?_, hq, by omega⟩
        simp [Relabel.bare, TypeRef.mapRange, Ident.mapRange, hi]
      · exact Agree.pure ⟨rfl, h, Nat.le_refl _⟩
    | _ => exact Agree.pure ⟨rfl, h, Nat.le_refl _⟩

/-- Alike parsers are at the end of a block, or none is. -/
theorem blockEnds_eq (h : p.Alike p') : blockEnds p = blockEnds p' := by
  simp only [blockEnds, h.isPunctuation, h.isEmpty]

/-- Statements up to a closing brace. -/
theorem agree_blockItems (hk : k.Agree k' m) (h : p.Alike p') (hm : p.left < m) (scope : ScopeId) :
    Agree
      (within scope do
        let stmts ← itemsUntil blockEnds k.stmt k.fuel
        let right ← punctuation "\x7d"
        return (stmts, right))
      (within scope do
        let stmts ← itemsUntil blockEnds k'.stmt k'.fuel
        let right ← punctuation "\x7d"
        return (stmts, right)) p p'
      (p.After 1 fun a a' => Stmt.relabelAll .bare a.1 = Stmt.relabelAll .bare a'.1) := by
  have hfuel := hk.fuel
  have hfuel' := hk.fuel'
  refine agree_within h scope fun q q' hq hleft => ?_
  refine (agree_itemsUntil (Stmt.relabel .bare) (m := q.left) blockEnds_eq
    (fun r r' hr hle => hk.stmt hr (by omega)) _ hq (Nat.le_refl _) (by omega) (by omega)).bind ?_
  rintro ss ss' q₁ q₁' ⟨hss, hq₁, hleft₁⟩
  refine (agree_punctuation hq₁ _).bind ?_
  rintro right right' q₂ q₂' ⟨-, hq₂, hleft₂⟩
  exact Agree.pure ⟨by simpa [Stmt.relabelAll_eq_map] using hss, hq₂, by omega⟩

theorem agree_blockIn (hk : k.Agree k' m) (h : p.Alike p') (hm : p.left ≤ m) (scope : ScopeId) :
    Agree (blockIn k scope) (blockIn k' scope) p p'
      (p.After 1 fun b b' => b.relabel .bare = b'.relabel .bare) := by
  unfold blockIn
  refine (agree_punctuation h _).bind ?_
  rintro left left' q q' ⟨-, hq, hleft⟩
  refine (agree_blockItems hk hq (by omega) scope).bind ?_
  rintro a a' q₁ q₁' ⟨ha, hq₁, hleft₁⟩
  exact Agree.pure ⟨by simp [Block.relabel, ha], hq₁, by omega⟩

/-- Blocks agree, and take at least their braces. -/
theorem agree_block (hk : k.Agree k' m) (h : p.Alike p') (hm : p.left ≤ m) :
    Agree (block k) (block k') p p' (p.After 1 fun b b' => b.relabel .bare = b'.relabel .bare) :=
  agree_opening h .block rfl fun own _ _ hq hleft =>
    (agree_blockIn hk hq (hleft ▸ hm) own).after (by omega)

/-- Declarations agree if statements do. -/
theorem agree_declaration {stmt stmt' : Parse Stmt} (h : p.Alike p')
    (hstmt : Agree stmt stmt' p p' (p.After 1 SameStmt)) :
    Agree (declaration stmt) (declaration stmt') p p' (p.After 1 SameDecl) := by
  unfold declaration
  refine Agree.get (hstmt.bind ?_)
  rintro s s' q q' ⟨hs, hq⟩
  have hs : s.relabel .bare = s'.relabel .bare := hs
  split
  · obtain ⟨d', range', rfl, hd⟩ := Stmt.exists_decl_of_relabel hs.symm
    exact Agree.pure ⟨hd.symm, hq⟩
  · rename_i hnot
    split
    · obtain ⟨d, range, hs, -⟩ := Stmt.exists_decl_of_relabel hs
      exact (hnot d range hs).elim
    · exact agree_error rfl rfl (by simp [h.found]) (by simp)

/-- Initial values agree, and a constant without one fails alike. -/
theorem agree_initialValue (hk : k.Agree k' m) (h : p.Alike p') (hm : p.left ≤ m)
    (constant : Bool) :
    Agree (initialValue k constant) (initialValue k' constant) p p'
      (p.After 0 fun e e' => e.map Expr.bare = e'.map Expr.bare) := by
  unfold initialValue
  refine (agree_accept h "=").bind ?_
  rintro b b' q q' ⟨rfl, hq, hleft⟩
  refine Agree.ite rfl (fun _ => ?_) fun _ => ?_
  · refine Agree.map ((hk.expr hq (by omega)).mono ?_)
    rintro e e' q₁ q₁' ⟨he, hq₁, hleft₁⟩
    exact ⟨congrArg some he, hq₁, by omega⟩
  · cases constant with
    | true => exact agree_failExpected hq _
    | false => exact Agree.pure ⟨rfl, hq, by omega⟩

/-- Variables that differ in ranges only. -/
theorem sameVariable {v v' : Variable} (hid : v.id = v'.id) (hident : SameName v.ident v'.ident)
    (htype : v.type.bind Relabel.bare.type = v'.type.bind Relabel.bare.type)
    (hinit : v.init.map Expr.bare = v'.init.map Expr.bare) (hconstant : v.constant = v'.constant)
    (hscope : v.scope = v'.scope) : v.relabel .bare = v'.relabel .bare := by
  have hinit : v.init.map (Expr.mapRange Relabel.bare.range) =
    v'.init.map (Expr.mapRange Relabel.bare.range) := hinit
  have hident : v.ident.mapRange Relabel.bare.range = v'.ident.mapRange Relabel.bare.range :=
    congrArg (Ident.mk · .unknown) hident
  simp only [Variable.relabel, hid, hident, htype, hinit, hconstant, hscope]
  rfl

/-- Variables agree, and are entered with the same number in the same scope. -/
theorem agree_variableDecl (hk : k.Agree k' m) (h : p.Alike p') (hm : p.left ≤ m)
    (constant : Bool) :
    Agree (variableDecl k constant) (variableDecl k' constant) p p'
      (p.After 1 fun v v' => v.relabel .bare = v'.relabel .bare) := by
  unfold variableDecl
  refine (agree_word h _).bind ?_
  rintro start start' q q' ⟨-, hq, hleft⟩
  refine (agree_typeRef? hq).bind ?_
  rintro type type' q₁ q₁' ⟨htype, hq₁, hleft₁⟩
  refine (agree_identifier hq₁).bind ?_
  rintro ident ident' q₂ q₂' ⟨hident, hq₂, hleft₂⟩
  refine (agree_declare hq₂ hident).bind ?_
  rintro id id' q₃ q₃' ⟨hid, hq₃, hleft₃⟩
  refine (agree_initialValue hk hq₃ (by omega) constant).bind ?_
  rintro init init' q₄ q₄' ⟨hinit, hq₄, hleft₄⟩
  refine (agree_punctuation hq₄ _).bind ?_
  rintro stop stop' q₅ q₅' ⟨-, hq₅, hleft₅⟩
  exact Agree.get (Agree.pure ⟨sameVariable hid hident htype hinit rfl hq₅.scope, hq₅, by omega⟩)

theorem agree_param (h : p.Alike p') :
    Agree param param p p' (p.After 1 fun v v' => v.relabel .bare = v'.relabel .bare) := by
  unfold param
  refine (agree_typeRef? h).bind ?_
  rintro type type' q₁ q₁' ⟨htype, hq₁, hleft₁⟩
  refine (agree_identifier hq₁).bind ?_
  rintro ident ident' q₂ q₂' ⟨hident, hq₂, hleft₂⟩
  refine (agree_declare hq₂ hident).bind ?_
  rintro id id' q₃ q₃' ⟨hid, hq₃, hleft₃⟩
  exact Agree.get (Agree.pure ⟨sameVariable hid hident htype rfl rfl hq₃.scope, hq₃, by omega⟩)

/-- Parameters agree one by one. -/
theorem agree_params (hk : k.Agree k' m) (h : p.Alike p') (hm : p.left ≤ m) :
    Agree (params k) (params k') p p'
      (p.After 1 fun vs vs' =>
        vs.map (Variable.relabel .bare) = vs'.map (Variable.relabel .bare)) := by
  have hfuel := hk.fuel
  have hfuel' := hk.fuel'
  unfold params
  refine (agree_punctuation h _).bind ?_
  rintro _ _ q q' ⟨-, hq, hleft⟩
  refine (agree_separated (Variable.relabel .bare) (m := q.left) (fun hr => hr.isPunctuation _)
    (fun r r' hr _ => agree_param hr) _ hq (Nat.le_refl _) (by omega) (by omega)).bind ?_
  rintro vs vs' q₁ q₁' ⟨hvs, hq₁, hleft₁⟩
  refine (agree_punctuation hq₁ _).bind ?_
  rintro _ _ q₂ q₂' ⟨-, hq₂, hleft₂⟩
  exact Agree.pure ⟨hvs, hq₂, by omega⟩

/-- Functions agree, in scopes that are opened alike. -/
theorem agree_funcDecl (hk : k.Agree k' m) (h : p.Alike p') (hm : p.left ≤ m) :
    Agree (funcDecl k) (funcDecl k') p p'
      (p.After 1 fun f f' => f.relabel .bare = f'.relabel .bare) := by
  unfold funcDecl
  refine (agree_word h _).bind ?_
  rintro start start' q q' ⟨-, hq, hleft⟩
  refine (agree_typeRef? hq).bind ?_
  rintro type type' q₁ q₁' ⟨htype, hq₁, hleft₁⟩
  refine (agree_identifier hq₁).bind ?_
  rintro ident ident' q₂ q₂' ⟨hident, hq₂, hleft₂⟩
  refine (agree_declare hq₂ hident).bind ?_
  rintro id id' q₃ q₃' ⟨rfl, hq₃, hleft₃⟩
  refine Agree.get (agree_opening hq₃ .function rfl fun own q₄ q₄' hq₄ hleft₄ => ?_)
  refine (agree_params hk hq₄ (by omega)).bind ?_
  rintro vars vars' q₅ q₅' ⟨hvars, hq₅, hleft₅⟩
  refine (agree_blockIn hk hq₅ (by omega) own).bind ?_
  rintro body body' q₆ q₆' ⟨hbody, hq₆, hleft₆⟩
  refine Agree.pure ⟨?_, hq₆, by omega⟩
  simp [Func.relabel, Ident.mapRange, hident, htype, hvars, hbody, hq₃.scope]

theorem agree_members (hk : k.Agree k' m) (h : p.Alike p') (hm : p.left ≤ m) :
    Agree (members k) (members k') p p'
      (p.After 1 fun a a' => Decl.relabelAll .bare a.1 = Decl.relabelAll .bare a'.1) := by
  have hfuel := hk.fuel
  have hfuel' := hk.fuel'
  unfold members
  refine (agree_punctuation h _).bind ?_
  rintro _ _ q q' ⟨-, hq, hleft⟩
  refine (agree_itemsUntil (Decl.relabel .bare) (m := q.left) blockEnds_eq
    (fun r r' hr hle => agree_declaration hr (hk.stmt hr (by omega))) _ hq (Nat.le_refl _)
    (by omega)
    (by omega)).bind ?_
  rintro ds ds' q₁ q₁' ⟨hds, hq₁, hleft₁⟩
  refine (agree_punctuation hq₁ _).bind ?_
  rintro _ _ q₂ q₂' ⟨-, hq₂, hleft₂⟩
  exact Agree.pure ⟨by simpa [Decl.relabelAll_eq_map] using hds, hq₂, by omega⟩

/-- Classes and namespaces agree, in scopes that are opened alike. -/
theorem agree_groupDecl (hk : k.Agree k' m) (h : p.Alike p') (hm : p.left ≤ m) (kind : GroupKind) :
    Agree (groupDecl kind k) (groupDecl kind k') p p'
      (p.After 1 fun g g' => g.relabel .bare = g'.relabel .bare) := by
  unfold groupDecl
  refine (agree_word h _).bind ?_
  rintro start start' q q' ⟨-, hq, hleft⟩
  refine (agree_identifier hq).bind ?_
  rintro ident ident' q₁ q₁' ⟨hident, hq₁, hleft₁⟩
  refine (agree_declare hq₁ hident).bind ?_
  rintro id id' q₂ q₂' ⟨rfl, hq₂, hleft₂⟩
  refine Agree.get (agree_opening hq₂ (.group kind) rfl fun own q₃ q₃' hq₃ hleft₃ => ?_)
  refine (agree_members hk hq₃ (by omega)).bind ?_
  rintro a a' q₄ q₄' ⟨ha, hq₄, hleft₄⟩
  refine Agree.pure ⟨?_, hq₄, by omega⟩
  simp [Group.relabel, Ident.mapRange, hident, ha, hq₂.scope]

/-! ## Statements -/

/-- Conditions in parentheses agree. -/
theorem agree_condition (hk : k.Agree k' m) (h : p.Alike p') (hm : p.left ≤ m) :
    Agree (condition k) (condition k') p p' (p.After 1 SameExpr) := by
  unfold condition
  refine (agree_punctuation h _).bind ?_
  rintro _ _ q q' ⟨-, hq, hleft⟩
  refine (hk.expr hq (by omega)).bind ?_
  rintro e e' q₁ q₁' ⟨he, hq₁, hleft₁⟩
  refine (agree_punctuation hq₁ _).bind ?_
  rintro _ _ q₂ q₂' ⟨-, hq₂, hleft₂⟩
  exact Agree.pure ⟨he, hq₂, by omega⟩

theorem agree_unlessAt (hk : k.Agree k' m) (h : p.Alike p') (hm : p.left ≤ m) (text : String) :
    Agree (unlessAt text k) (unlessAt text k') p p'
      (p.After 0 fun e e' => e.map Expr.bare = e'.map Expr.bare) := by
  refine Agree.get (Agree.ite (h.isPunctuation text) (fun _ => ?_) fun _ => ?_)
  · exact Agree.pure ⟨rfl, h, Nat.le_refl _⟩
  · refine Agree.map ((hk.expr h hm).mono ?_)
    rintro e e' q q' ⟨he, hq, hleft⟩
    exact ⟨congrArg some he, hq, by omega⟩

/-- The first part of a `for` loop agrees, whether it is there or not. -/
theorem agree_forInit (hk : k.Agree k' m) (h : p.Alike p') (hm : p.left < m) :
    Agree (forInit k) (forInit k') p p'
      (p.After 0 fun s s' => Stmt.relabel? .bare s = Stmt.relabel? .bare s') := by
  unfold forInit
  refine (agree_accept h ";").bind ?_
  rintro b b' q q' ⟨rfl, hq, hleft⟩
  refine Agree.ite rfl (fun _ => ?_) fun _ => ?_
  · exact Agree.pure ⟨rfl, hq, by omega⟩
  · refine Agree.map ((hk.stmt hq (by omega)).mono ?_)
    rintro s s' q₁ q₁' ⟨hs, hq₁, hleft₁⟩
    exact ⟨congrArg some hs, hq₁, by omega⟩

/-- A form agrees with itself whenever what it calls back for does. -/
def FormAgrees (form : Form) : Prop :=
  ∀ ⦃k k' : Nested⦄ ⦃m : Nat⦄ ⦃p p' : Parser⦄, k.Agree k' m → p.Alike p' → p.left ≤ m →
    Agree (form k) (form k') p p' (p.After 1 SameStmt)

/-- Alike parsers are both at an `else` after the first branch, or none is. -/
theorem agree_ifForm : FormAgrees ifForm := by
  intro k k' m p p' hk h hm
  refine (agree_word h _).bind ?_
  rintro start start' q q' ⟨-, hq, hleft⟩
  refine (agree_condition hk hq (by omega)).bind ?_
  rintro c c' q₁ q₁' ⟨hc, hq₁, hleft₁⟩
  refine (hk.stmt hq₁ (by omega)).bind ?_
  rintro a a' q₂ q₂' ⟨ha, hq₂, hleft₂⟩
  refine Agree.get (Agree.ite (hq₂.isIdentifier _) (fun helse => ?_) fun _ => ?_)
  · obtain ⟨hnone, -⟩ | ⟨l, r, r', hcur, hcur'⟩ := hq₂.current_cases
    · simp [Parser.isIdentifier, hnone] at helse
    · refine (agree_advance hq₂ hcur hcur').bind ?_
      rintro _ _ q₃ q₃' ⟨-, hq₃, hleft₃⟩
      refine (hk.stmt hq₃ (by omega)).bind ?_
      rintro b b' q₄ q₄' ⟨hb, hq₄, hleft₄⟩
      exact Agree.pure ⟨by simp [SameStmt, Stmt.relabel, Stmt.relabel?, hc, ha, hb], hq₄, by omega⟩
  · exact Agree.pure ⟨by simp [SameStmt, Stmt.relabel, Stmt.relabel?, hc, ha], hq₂, by omega⟩

theorem agree_whileForm : FormAgrees whileForm := by
  intro k k' m p p' hk h hm
  refine (agree_word h _).bind ?_
  rintro start start' q q' ⟨-, hq, hleft⟩
  refine (agree_condition hk hq (by omega)).bind ?_
  rintro c c' q₁ q₁' ⟨hc, hq₁, hleft₁⟩
  refine (hk.stmt hq₁ (by omega)).bind ?_
  rintro body body' q₂ q₂' ⟨hbody, hq₂, hleft₂⟩
  exact Agree.pure ⟨by simp [SameStmt, Stmt.relabel, hc, hbody], hq₂, by omega⟩

theorem agree_doForm : FormAgrees doForm := by
  intro k k' m p p' hk h hm
  refine (agree_word h _).bind ?_
  rintro start start' q q' ⟨-, hq, hleft⟩
  refine (hk.stmt hq (by omega)).bind ?_
  rintro body body' q₁ q₁' ⟨hbody, hq₁, hleft₁⟩
  refine (agree_word hq₁ _).bind ?_
  rintro _ _ q₂ q₂' ⟨-, hq₂, hleft₂⟩
  refine (agree_condition hk hq₂ (by omega)).bind ?_
  rintro c c' q₃ q₃' ⟨hc, hq₃, hleft₃⟩
  refine (agree_punctuation hq₃ _).bind ?_
  rintro stop stop' q₄ q₄' ⟨-, hq₄, hleft₄⟩
  exact Agree.pure ⟨by simp [SameStmt, Stmt.relabel, hc, hbody], hq₄, by omega⟩

/-- A `for` loop agrees part by part. -/
theorem agree_forForm : FormAgrees forForm := by
  intro k k' m p p' hk h hm
  refine (agree_word h _).bind ?_
  rintro start start' q q' ⟨-, hq, hleft⟩
  refine agree_opening hq .block rfl fun own q₀ q₀' hq₀ hleft₀ => ?_
  refine (agree_punctuation hq₀ _).bind ?_
  rintro _ _ q₁ q₁' ⟨-, hq₁, hleft₁⟩
  refine (agree_forInit hk hq₁ (by omega)).bind ?_
  rintro init init' q₂ q₂' ⟨hinit, hq₂, hleft₂⟩
  refine (agree_unlessAt hk hq₂ (by omega) _).bind ?_
  rintro c c' q₃ q₃' ⟨hc, hq₃, hleft₃⟩
  refine (agree_punctuation hq₃ _).bind ?_
  rintro _ _ q₄ q₄' ⟨-, hq₄, hleft₄⟩
  refine (agree_unlessAt hk hq₄ (by omega) _).bind ?_
  rintro step step' q₅ q₅' ⟨hstep, hq₅, hleft₅⟩
  refine (agree_punctuation hq₅ _).bind ?_
  rintro _ _ q₆ q₆' ⟨-, hq₆, hleft₆⟩
  refine (hk.stmt hq₆ (by omega)).bind ?_
  rintro body body' q₇ q₇' ⟨hbody, hq₇, hleft₇⟩
  exact Agree.pure ⟨by simp [SameStmt, Stmt.relabel, hinit, hc, hstep, hbody], hq₇, by omega⟩

theorem agree_switchForm : FormAgrees switchForm := by
  intro k k' m p p' hk h hm
  refine (agree_word h _).bind ?_
  rintro start start' q q' ⟨-, hq, hleft⟩
  refine (agree_condition hk hq (by omega)).bind ?_
  rintro subject subject' q₁ q₁' ⟨hsubject, hq₁, hleft₁⟩
  refine (agree_block hk hq₁ (by omega)).bind ?_
  rintro body body' q₂ q₂' ⟨hbody, hq₂, hleft₂⟩
  exact Agree.pure ⟨by simp [SameStmt, Stmt.relabel, hsubject, hbody], hq₂, by omega⟩

theorem agree_caseForm : FormAgrees caseForm := by
  intro k k' m p p' hk h hm
  refine (agree_word h _).bind ?_
  rintro start start' q q' ⟨-, hq, hleft⟩
  refine (hk.expr hq (by omega)).bind ?_
  rintro value value' q₁ q₁' ⟨hvalue, hq₁, hleft₁⟩
  refine (agree_punctuation hq₁ _).bind ?_
  rintro stop stop' q₂ q₂' ⟨-, hq₂, hleft₂⟩
  exact Agree.pure ⟨by simp [SameStmt, Stmt.relabel, hvalue], hq₂, by omega⟩

theorem agree_wordThen (h : p.Alike p') (text mark : String) :
    Agree (wordThen text mark) (wordThen text mark) p p' (p.After 1 fun _ _ => True) := by
  unfold wordThen
  refine (agree_word h _).bind ?_
  rintro start start' q q' ⟨-, hq, hleft⟩
  refine (agree_punctuation hq _).bind ?_
  rintro stop stop' q₁ q₁' ⟨-, hq₁, hleft₁⟩
  exact Agree.pure ⟨trivial, hq₁, by omega⟩

theorem agree_returnForm : FormAgrees returnForm := by
  intro k k' m p p' hk h hm
  refine (agree_word h _).bind ?_
  rintro start start' q q' ⟨-, hq, hleft⟩
  refine (agree_unlessAt hk hq (by omega) _).bind ?_
  rintro value value' q₁ q₁' ⟨hvalue, hq₁, hleft₁⟩
  refine (agree_punctuation hq₁ _).bind ?_
  rintro stop stop' q₂ q₂' ⟨-, hq₂, hleft₂⟩
  exact Agree.pure ⟨by simp [SameStmt, Stmt.relabel, hvalue], hq₂, by omega⟩

theorem agree_exprStmt : FormAgrees exprStmt := by
  intro k k' m p p' hk h hm
  refine (hk.expr h hm).bind ?_
  rintro e e' q q' ⟨he, hq, hleft⟩
  refine (agree_punctuation hq _).bind ?_
  rintro stop stop' q₁ q₁' ⟨-, hq₁, hleft₁⟩
  exact Agree.pure ⟨by simp [SameStmt, Stmt.relabel, he], hq₁, by omega⟩

/-- A form that makes a statement of what a step reads. -/
theorem agree_mapForm {α : Type} {read : Nested → Parse α} {make : α → Stmt} {R : α → α → Prop}
    (hmake : ∀ a a', R a a' → SameStmt (make a) (make a'))
    (hread : ∀ ⦃k k' : Nested⦄ ⦃m : Nat⦄ ⦃p p' : Parser⦄, k.Agree k' m → p.Alike p' → p.left ≤ m →
      Agree (read k) (read k') p p' (p.After 1 R)) : FormAgrees fun k => make <$> read k := by
  intro k k' m p p' hk h hm
  refine Agree.map ((hread hk h hm).mono ?_)
  rintro a a' q q' ⟨ha, hq⟩
  exact ⟨hmake a a' ha, hq⟩

/-- Every form of statement of the language agrees with itself. -/
theorem agree_form {text : String} {form : Form} (hmem : (text, form) ∈ forms) :
    FormAgrees form := by
  have hvar : ∀ v v' : Variable, v.relabel .bare = v'.relabel .bare →
      SameStmt (declStmt (.var v)) (declStmt (.var v')) := by
    intro v v' hv
    simp [SameStmt, declStmt, Stmt.relabel, Decl.relabel, hv]
  have hgroup : ∀ g g' : Group, g.relabel .bare = g'.relabel .bare →
      SameStmt (declStmt (.group g)) (declStmt (.group g')) := by
    intro g g' hg
    simp [SameStmt, declStmt, Stmt.relabel, Decl.relabel, hg]
  simp only [forms, List.mem_cons, Prod.mk.injEq, List.not_mem_nil, or_false] at hmem
  rcases hmem with
    ⟨-, rfl⟩ | ⟨-, rfl⟩ | ⟨-, rfl⟩ | ⟨-, rfl⟩ | ⟨-, rfl⟩ | ⟨-, rfl⟩ | ⟨-, rfl⟩ | ⟨-, rfl⟩ |
    ⟨-, rfl⟩ | ⟨-, rfl⟩ | ⟨-, rfl⟩ | ⟨-, rfl⟩ | ⟨-, rfl⟩ | ⟨-, rfl⟩ | ⟨-, rfl⟩ | ⟨-, rfl⟩
  · exact agree_mapForm hvar fun _ _ _ _ _ hk h hm => agree_variableDecl hk h hm false
  · exact agree_mapForm hvar fun _ _ _ _ _ hk h hm => agree_variableDecl hk h hm true
  · refine agree_mapForm (fun f f' hf => ?_) fun _ _ _ _ _ hk h hm => agree_funcDecl hk h hm
    simp [SameStmt, declStmt, Stmt.relabel, Decl.relabel, hf]
  · exact agree_mapForm hgroup fun _ _ _ _ _ hk h hm => agree_groupDecl hk h hm .classGroup
  · exact agree_mapForm hgroup fun _ _ _ _ _ hk h hm => agree_groupDecl hk h hm .namespaceGroup
  · exact agree_ifForm
  · exact agree_whileForm
  · exact agree_doForm
  · exact agree_forForm
  · exact agree_switchForm
  · exact agree_caseForm
  · exact agree_mapForm (fun _ _ _ => rfl) fun _ _ _ _ _ _ h _ => agree_wordThen h _ _
  · exact agree_mapForm (fun _ _ _ => rfl) fun _ _ _ _ _ _ h _ => agree_wordThen h _ _
  · exact agree_mapForm (fun _ _ _ => rfl) fun _ _ _ _ _ _ h _ => agree_wordThen h _ _
  · exact agree_returnForm
  · refine agree_mapForm (fun b b' hb => ?_) fun _ _ _ _ _ hk h hm => agree_block hk h hm
    simp [SameStmt, Stmt.relabel, hb]

/-- Alike parsers choose the same form, and it agrees with itself. -/
theorem agree_formHere (hk : k.Agree k' m) (h : p.Alike p') (hm : p.left ≤ m) :
    Agree (formHere .standard p k) (formHere .standard p' k') p p' (p.After 1 SameStmt) := by
  have hsame : formHere .standard p' = formHere .standard p := by
    simp only [formHere, h.formWord?]
  rw [hsame]
  have hform : FormAgrees (formHere .standard p) :=
    formHere_cases p agree_exprStmt agree_form
  exact hform hk h hm

/-- Bounds on nesting that suffice do not show in the statement that is read. -/
theorem agree_statement {n n' : Nat} (h : p.Alike p') (hn : 3 * p.left + 4 ≤ n)
    (hn' : 3 * p.left + 4 ≤ n') :
    Agree (statement .standard n) (statement .standard n') p p' (p.After 1 SameStmt) := by
  induction n generalizing n' p p' with
  | zero => omega
  | succ n ih =>
    obtain ⟨n', rfl⟩ : ∃ k, n' = k + 1 := ⟨n' - 1, by omega⟩
    have hk : Nested.Agree ⟨n, expression Grammar.standard.operators n, statement .standard n⟩
        ⟨n', expression Grammar.standard.operators n', statement .standard n'⟩ p.left := by
      refine ⟨fun hq hm => ?_, fun hq hm => ?_, by simp only; omega, by simp only; omega⟩
      · exact (exprAgree _ n).binary _ hq (by omega) (by omega)
      · exact ih hq (by omega) (by omega)
    rw [statement, statement]
    exact Agree.get (agree_formHere hk h (Nat.le_refl _))

end Parse

/-! ## Programs and scripts -/

/-- A program without its ranges. -/
def Program.bare (p : Program) : Program :=
  ⟨Decl.relabelAll .bare p.decls, .unknown, p.names, p.scopes⟩

/-- A script without its ranges. -/
def Script.bare (s : Script) : Script :=
  ⟨Stmt.relabelAll .bare s.stmts, .unknown, s.names, s.scopes⟩

namespace Parse

/-- Programs that are read from alike parsers differ in ranges only. -/
theorem agree_program (h : p.Alike p') :
    Agree (program .standard) (program .standard) p p'
      (p.After 0 fun a a' => a.bare = a'.bare) := by
  have hfuel : 3 * p.left + 4 ≤ p.fuel := p.length_ahead_le
  have hfuel' : 3 * p.left + 4 ≤ p'.fuel := h.left_eq ▸ p'.length_ahead_le
  refine Agree.get ?_
  refine (agree_itemsUntil (Decl.relabel .bare) (m := p.left) Parser.Alike.isEmpty
    (fun q q' hq hm => agree_declaration hq (agree_statement hq (by omega) (by omega))) _ h
    (Nat.le_refl _)
    (by omega) (by omega)).bind ?_
  rintro ds ds' q q' ⟨hds, hq, hleft⟩
  refine Agree.get (Agree.pure ⟨?_, hq, hleft⟩)
  simp [Program.bare, Decl.relabelAll_eq_map, hds, hq.names, hq.scopes]

/-- Scripts that are read from alike parsers differ in ranges only. -/
theorem agree_script (h : p.Alike p') :
    Agree (script .standard) (script .standard) p p' (p.After 0 fun a a' => a.bare = a'.bare) := by
  have hfuel : 3 * p.left + 4 ≤ p.fuel := p.length_ahead_le
  have hfuel' : 3 * p.left + 4 ≤ p'.fuel := h.left_eq ▸ p'.length_ahead_le
  refine Agree.get ?_
  refine (agree_itemsUntil (Stmt.relabel .bare) (m := p.left) Parser.Alike.isEmpty
    (fun q q' hq hm => agree_statement hq (by omega) (by omega)) _ h (Nat.le_refl _) (by omega)
    (by omega)).bind ?_
  rintro ss ss' q q' ⟨hss, hq, hleft⟩
  refine Agree.get (Agree.pure ⟨?_, hq, hleft⟩)
  simp [Script.bare, Stmt.relabelAll_eq_map, hss, hq.names, hq.scopes]

/-- Steps that agree give the same result up to `key`, or the same fault. -/
theorem Agree.eval_eq {α β : Type} {act act' : Parse α} {key : α → β} {k : Nat}
    (h : Agree act act' p p' (p.After k fun a a' => key a = key a')) :
    ((eval act p).map key).mapError ParseError.fault =
      ((eval act' p').map key).mapError ParseError.fault := by
  unfold Agree at h
  unfold eval
  split at h
  · rename_i a q a' q' hact hact'
    rw [hact, hact']
    exact congrArg Except.ok h.1
  · rename_i e q e' q' hact hact'
    rw [hact, hact']
    exact congrArg Except.error h.1
  · exact h.elim

end Parse

namespace Buffer

variable {b b' : Buffer}

/-- What the tokens of a buffer that carry meaning say, and the fault after them. -/
def words (b : Buffer) : List (Except LexFault Lexeme) :=
  (Filter.ofItems Filter.trivia b.items).toList.map Item.content

/-- Reading two buffers of the same words with steps that agree. -/
theorem eval_start_of_words {α β : Type} {act : Parse α} {key : α → β} (hwords : b.words = b'.words)
    (hact : ∀ {p p' : Parser}, p.Alike p' →
      Parse.Agree act act p p' (p.After 0 fun a a' => key a = key a')) :
    ((Parser.start b >>= Parse.eval act).map key).mapError ParseError.fault =
      ((Parser.start b' >>= Parse.eval act).map key).mapError ParseError.fault := by
  simp only [words, Filter.toList_eq] at hwords
  have hstart : (∃ e e', Parser.start b = .error e ∧ Parser.start b' = .error e' ∧
      e.fault = e'.fault) ∨
      ∃ p p', Parser.start b = .ok p ∧ Parser.start b' = .ok p' ∧ p.Alike p' := by
    have hrest : (Parser.ofBuffer b).upcoming.remaining.map Item.content =
        (Parser.ofBuffer b').upcoming.remaining.map Item.content := by
      simp [Parser.ofBuffer, hwords]
    obtain ⟨hr, hr'⟩ | ⟨l, r, r', hr, hr'⟩ | ⟨f, r, r', hr, hr'⟩ := Item.head_cases hwords
    · simp only [Parser.start_eq, hr, hr']
      exact .inr ⟨_, _, rfl, rfl, by simp [Parser.ofBuffer, hr, hr'], hrest, rfl, rfl, rfl, rfl⟩
    · simp only [Parser.start_eq, hr, hr']
      exact .inr ⟨_, _, rfl, rfl, by simp [Parser.ofBuffer, hr, hr'], hrest, rfl, rfl, rfl, rfl⟩
    · simp only [Parser.start_eq, hr, hr']
      exact .inl ⟨_, _, rfl, rfl, rfl⟩
  obtain ⟨e, e', he, he', hfault⟩ | ⟨p, p', hp, hp', halike⟩ := hstart
  · rw [he, he']
    exact congrArg Except.error hfault
  · rw [hp, hp']
    exact (hact halike).eval_eq

/-- Programs of the same words are the same up to ranges, or refused for the same reason. -/
theorem program_bare_of_words (h : b.words = b'.words) :
    (b.program.map Program.bare).mapError ParseError.fault =
      (b'.program.map Program.bare).mapError ParseError.fault :=
  eval_start_of_words h Parse.agree_program

/-- Scripts of the same words are the same up to ranges, or refused for the same reason. -/
theorem script_bare_of_words (h : b.words = b'.words) :
    (b.script.map Script.bare).mapError ParseError.fault =
      (b'.script.map Script.bare).mapError ParseError.fault :=
  eval_start_of_words h Parse.agree_script

end Buffer

end Rill
