import Rill.Proofs.Jumps
import Rill.Proofs.Replacement

/-!
# A `switch` as a chain of `if` statements

A switch without fall-through does what a block does that binds its subject to a name and then
compares the name with the value of each case in turn (`IfChain`). The cases keep their order,
and the default comes last wherever it stands in the switch. The search for the entry of a
switch evaluates the same values in the same order as the chain does, up to the first that is
equal (`Eval.agree_groups`).

The chain has a frame more, which binds the name. No part of the switch and none of the functions
that can be called uses the name, so the frame is not noticed. A group ends in a `break`, which is
the end of the switch, and has no other that would leave it (`Eval.agree_group`). So the two end
alike (`Eval.switch_as_chain`).
-/

namespace Rill

/-- Whether a statement is the label of a group. -/
def Stmt.isLabel : Stmt → Bool
  | .caseLabel .. | .defaultLabel _ => true
  | _ => false

/-- A group of a switch without fall-through : a label, which has no value if it is the default, and
statements without labels and without a free `break`. -/
structure SwitchGroup where
  value : Option Expr
  stmts : List Stmt
  labelRange : Range
  breakRange : Range
  unlabelled : ∀ s ∈ stmts, s.isLabel = false
  unbroken : Stmt.anyFree .break stmts = false

namespace SwitchGroup

/-- The label of a group. -/
def label (g : SwitchGroup) : Stmt :=
  match g.value with
  | some v => .caseLabel v g.labelRange
  | none => .defaultLabel g.labelRange

/-- A group as it is written, with a `break` at its end, and the statements after it. -/
def before (g : SwitchGroup) (rest : List Stmt) : List Stmt :=
  g.label :: (g.stmts ++ .break g.breakRange :: rest)

/-- The statements of a switch that consists of groups. -/
def body : List SwitchGroup → List Stmt
  | [] => []
  | g :: groups => g.before (body groups)

/-- The statements of the first default among groups. -/
def default? (groups : List SwitchGroup) : Option (List Stmt) :=
  (groups.find? (·.value.isNone)).map (·.stmts)

end SwitchGroup

/-- `if` statements that compare a name with the values of the cases among some groups, in their
order, and execute the statements of the first that is equal. If there is none, `last` is
executed. -/
inductive IfChain (t : String) (last : Option (List Stmt)) : List SwitchGroup → Option Stmt → Prop
  | stop (h : last = none) : IfChain t last [] none
  | last (b : Block) (h : last = some b.stmts) : IfChain t last [] (some (.block b))
  | default {g : SwitchGroup} {groups : List SwitchGroup} {chain : Option Stmt}
      (hvalue : g.value = none) (h : IfChain t last groups chain) :
      IfChain t last (g :: groups) chain
  | case {g : SwitchGroup} {groups : List SwitchGroup} {chain : Option Stmt} {v : Expr} (b : Block)
      (nameRange comparison range : Range) (hvalue : g.value = some v) (hb : b.stmts = g.stmts)
      (h : IfChain t last groups chain) :
      IfChain t last (g :: groups)
        (some (.ifElse (.binary (.compare .eq) (.name ⟨t, nameRange⟩) v comparison) (.block b)
          chain range))

/-- The same fault, wherever it is told to have happened. -/
def RuntimeError.SameFault (e e' : RuntimeError) : Prop := e.fault = e'.fault

theorem RuntimeError.SameFault.refl (e : RuntimeError) : e.SameFault e := rfl

theorem RuntimeFault.sameFault_at (fault : RuntimeFault) (range range' : Range) :
    (fault.at range).SameFault (fault.at range') := by
  rw [RuntimeError.SameFault, fault_at, fault_at]

/-- A name is not among the names and words of a tree. -/
def Role.Avoid (t : String) (rs : List Role) : Prop := ∀ r ∈ rs, r.text? ≠ some t

instance (t : String) (rs : List Role) : Decidable (Role.Avoid t rs) :=
  inferInstanceAs (Decidable (∀ r ∈ rs, r.text? ≠ some t))

/-- A name is not among the names and words of a function. -/
def Func.Avoids (t : String) (f : Func) : Prop := Role.Avoid t f.roles

/-- A name is avoided in statements if it is in each of them. -/
theorem Role.avoid_stmts {t : String} {ss : List Stmt} :
    Role.Avoid t (Stmt.allRoles ss) ↔ ∀ s ∈ ss, Role.Avoid t s.roles := by
  induction ss with
  | nil => simp [Stmt.allRoles, Avoid]
  | cons s ss ih =>
    rw [List.forall_mem_cons, ← ih, Stmt.allRoles]
    simp only [Avoid, List.mem_append, or_imp, forall_and]

/-- A name that is avoided in a group and in what comes after it. -/
theorem SwitchGroup.avoid_before {t : String} {g : SwitchGroup} {rest : List Stmt}
    (h : Role.Avoid t (Stmt.allRoles (g.before rest))) :
    Role.Avoid t g.label.roles ∧ Role.Avoid t (Stmt.allRoles g.stmts) ∧
      Role.Avoid t (Stmt.allRoles rest) := by
  rw [Role.avoid_stmts, before, List.forall_mem_cons, List.forall_mem_append,
    List.forall_mem_cons] at h
  exact ⟨h.1, Role.avoid_stmts.2 h.2.1, Role.avoid_stmts.2 h.2.2.2⟩

/-- A frame with a variable. -/
def Frame.single (t : String) (v : Value) : Frame := ⟨[(t, ⟨.var, v⟩)]⟩

/-- A frame with a variable binds no other name. -/
theorem Frame.get?_single_of_ne {t x : String} (v : Value) (h : x ≠ t) :
    (single t v).get? x = none := by
  rw [get?, single, lookup_cons_of_ne h]
  rfl

theorem Frame.get?_single (t : String) (v : Value) : (single t v).get? t = some ⟨.var, v⟩ := by
  simp [get?, single]

/-- A frame that binds only an avoided name is apart. -/
theorem Role.Avoid.apart {t : String} {rs : List Role} (h : Role.Avoid t rs) (v : Value) :
    (Frame.single t v).Apart rs :=
  fun r hr _ hx => Frame.get?_single_of_ne v fun heq => h r hr (heq ▸ hx)

/-- Values are equal or not, if they can be compared at all. -/
theorem Value.eq_bool_of_compare {a b v : Value} (h : Value.binary (.compare .eq) a b = .ok v) :
    ∃ equal, v = .bool equal := by
  unfold binary nullBinary boolBinary intBinary floatBinary charBinary stringBinary unsupported at h
  grind

namespace Eval

open Eval.Graded

variable {n : Nat} {t : String} {v : Value}

theorem unfolds_entry_nil (fallback : Option (List Stmt)) :
    (of (.entry v [] fallback)).Unfolds (pure fallback) := .later _

/-- At a case the search evaluates its value and stops if it is equal. -/
theorem later_entry_case (e : Expr) (range : Range) (rest : List Stmt)
    (fallback : Option (List Stmt)) :
    (of (.entry v (.caseLabel e range :: rest) fallback)).later = (do
      let w ← of (.expr e)
      let equal ← steady (located range (Value.binary (.compare .eq) v w))
      if equal.bool? = some true then return some (.caseLabel e range :: rest)
      else of (.entry v rest fallback)) := by
  refine Graded.ext (funext fun n => ?_)
  change entry (n + 1) v (.caseLabel e range :: rest) fallback = expr n e >>= fun w =>
    located range (Value.binary (.compare .eq) v w) >>= fun equal =>
      Graded.run (if equal.bool? = some true then pure (some (.caseLabel e range :: rest))
        else of (.entry v rest fallback)) n
  simp only [entry, run_ite]
  rfl

/-- At a default the search goes on, with the first default as its fallback. -/
theorem unfolds_entry_default (range : Range) (rest : List Stmt) (fallback : Option (List Stmt)) :
    (of (.entry v (.defaultLabel range :: rest) fallback)).Unfolds
      (of (.entry v rest (fallback <|> some (.defaultLabel range :: rest)))) := .later _

/-- Other statements are passed. -/
theorem unfolds_entry_cons {s : Stmt} (hs : s.isLabel = false) (rest : List Stmt)
    (fallback : Option (List Stmt)) :
    (of (.entry v (s :: rest) fallback)).Unfolds (of (.entry v rest fallback)) := by
  cases s with
  | caseLabel | defaultLabel => cases hs
  | _ => exact .later _

/-- An `if` evaluates its condition and executes one branch. -/
theorem later_ifElse (c : Expr) (a : Stmt) (b : Option Stmt) (range : Range) :
    (of (.stmt (.ifElse c a b range))).later = (do
      let x ← of (.expr c)
      let holds ← steady (condition c x)
      if holds then of (.stmt a) else of (.stmt? b)) := by
  refine Graded.ext (funext fun n => ?_)
  change stmt (n + 1) (.ifElse c a b range) = expr n c >>= fun x => condition c x >>= fun holds =>
    Graded.run (if holds then of (.stmt a) else of (.stmt? b)) n
  simp only [stmt, run_ite]
  rfl

/-- What comes after the search for the entry of a switch. -/
def ontoEntry : Option (List Stmt) → Graded Flow
  | none => pure .normal
  | some rest => do
    let flow ← inFrame (of (.stmts rest))
    return flow.afterSwitch

/-- A switch evaluates its subject, searches for its entry and goes on there. -/
theorem unfolds_switch (subject : Expr) (body : Block) (range : Range) :
    (of (.stmt (.switch subject body range))).Unfolds (do
      let v ← of (.expr subject)
      let found ← of (.entry v body.stmts none)
      ontoEntry found) := by
  have hlater : (of (.stmt (.switch subject body range))).later =
      of (.expr subject) >>= fun v => of (.entry v body.stmts none) >>= ontoEntry := by
    refine Graded.ext (funext fun n => ?_)
    change stmt (n + 1) (.switch subject body range) = expr n subject >>= fun v =>
      entry n v body.stmts none >>= fun found => (ontoEntry found).run n
    rw [stmt]
    congr 1
    funext v
    congr 1
    funext found
    cases found with
    | none => rfl
    | some rest =>
      simp only [ontoEntry, inFrame, bind_assoc, pure_bind]
      rfl
  exact hlater ▸ .later _

/-! ## Groups and branches -/

/-- A group that is entered in a switch : a `break` ends it, where the branch of a
chain just ends. -/
theorem agree_stmts {ss : List Stmt} (hss : Role.Avoid t (Stmt.allRoles ss))
    (hbreak : Stmt.anyFree .break ss = false) (range : Range) (rest : List Stmt)
    {R : Env → Env → Prop} {k : Flow → Graded Flow}
    (hk : ∀ flow, Agree RuntimeError.SameFault (Env.Padded (.single t v) 1) R n (k flow) (k flow)) :
    Agree RuntimeError.SameFault (Env.Padded (.single t v) 1) R n
      (of (.stmts (ss ++ .break range :: rest)) >>= fun flow => k flow.afterSwitch)
        (of (.stmts ss) >>= k) := by
  induction ss with
  | nil =>
    have hstmt : (of (.stmt (.break range))).Unfolds (pure (.break range)) := .later _
    refine .unfold ((unfolds_stmts_cons _ rest).before _)
      (.unfold_right (unfolds_stmts_nil.before _) ?_)
    rw [bind_assoc]
    refine .unfold (hstmt.before _) ?_
    rw [pure_bind, pure_bind]
    exact hk .normal
  | cons s ss ih =>
    rw [Stmt.anyFree, Bool.or_eq_false_iff] at hbreak
    have happart := Frame.apart_append.1 (hss.apart v)
    have hs : (Task.stmt s).Allowed (.apart (.single t v)) := .stmt (Node.all_apart happart.1)
    have hrest : Role.Avoid t (Stmt.allRoles ss) := fun i hi => hss i (List.mem_append_right _ hi)
    refine .unfold ((unfolds_stmts_cons _ _).before _)
      (.unfold_right ((unfolds_stmts_cons _ _).before _) ?_)
    rw [bind_assoc, bind_assoc]
    refine (Agree.padded RuntimeError.SameFault.refl hs fun _ => Nat.one_pos).bind_of
      (fun flow => ∀ range, flow ≠ .break range) ?_ fun flow hflow => ?_
    · rintro m env _ last hrun range rfl
      have hfree := (jump_of_stmt hrun (j := .break) rfl).1
      rw [hbreak.1] at hfree
      cases hfree
    · cases flow with
      | normal => exact ih hrest hbreak.2
      | «break» range => exact absurd rfl (hflow range)
      | «continue» range | «return» w =>
        simp only [ontoStmts, pure_bind, Flow.afterSwitch]
        exact hk _

/-- A group that is entered, and a block of its statements. -/
theorem agree_group {g : SwitchGroup} (hg : Role.Avoid t (Stmt.allRoles g.stmts))
    (rest : List Stmt) {b : Block} (hb : b.stmts = g.stmts) :
    Agree RuntimeError.SameFault (Env.Padded (.single t v) 0) (Env.Padded (.single t v) 0) n
      (ontoEntry (some (g.before rest))) (of (.stmt (.block b))) := by
  have hlabel : (of (.stmt g.label)).Unfolds (pure .normal) := by
    unfold SwitchGroup.label
    cases g.value <;> exact .later _
  refine .unfold_right (unfolds_block b) ?_
  rw [hb]
  simp only [ontoEntry, inFrame, bind_assoc, pure_bind]
  refine (Agree.overlooked RuntimeError.SameFault.refl overlooks_push).bind fun _ => ?_
  refine .unfold ((unfolds_stmts_cons _ _).before _) ?_
  rw [bind_assoc]
  refine .unfold (hlabel.before _) ?_
  rw [pure_bind]
  refine agree_stmts hg g.unbroken _ _ (k := fun flow => steady pop >>= fun _ => pure flow)
    fun flow => ?_
  exact (Agree.overlooked RuntimeError.SameFault.refl overlooks_pop).bind fun _ =>
    .pure _ fun _ _ h => h

/-- The search passes over what is no label. -/
theorem agree_entry_of_unlabelled {α : Type} {R R' : Env → Env → Prop} {ss rest : List Stmt}
    {fallback : Option (List Stmt)} {k : Option (List Stmt) → Graded α} {g' : Graded α}
    (range : Range) (hss : ∀ s ∈ ss, s.isLabel = false)
    (h : Agree RuntimeError.SameFault R R' n (of (.entry v rest fallback) >>= k) g') :
    Agree RuntimeError.SameFault R R' n
      (of (.entry v (ss ++ .break range :: rest) fallback) >>= k) g' := by
  induction ss with
  | nil => exact .unfold ((unfolds_entry_cons rfl rest fallback).before _) h
  | cons s ss ih =>
    rw [List.forall_mem_cons] at hss
    exact .unfold ((unfolds_entry_cons hss.1 _ fallback).before _) (ih hss.2)

/-! ## The search and the chain -/

/-- The name is looked up in the frame that binds it. -/
theorem lookup_of_padded {env env' : Env} (h : env.Padded (.single t v) 0 env') (range : Range) :
    lookup ⟨t, range⟩ env' = .ok v env' := by
  have hfind : find? t env' = .ok (some ⟨.var, v⟩) env' :=
    congrArg (EStateM.Result.ok · env') (h.stack.find?_of_extra (Frame.get?_single t v))
  exact bind_of_ok hfind

/-- A comparison evaluates both sides and compares them. -/
theorem unfolds_comparison (c : Comparison) (lhs rhs : Expr) (range : Range) :
    (of (.expr (.binary (.compare c) lhs rhs range))).Unfolds (do
      let a ← of (.expr lhs)
      let b ← of (.expr rhs)
      steady (located range (Value.binary (.compare c) a b))) := .later _

theorem unfolds_name (ident : Ident) : (of (.expr (.name ident))).Unfolds (steady (lookup ident)) :=
  .later _

/-- A case : the value is compared with the subject, and the rest is the search in the
groups after it. -/
theorem agree_case {g : SwitchGroup} {e : Expr} (hvalue : g.value = some e)
    (he : Role.Avoid t e.roles) {rest : List Stmt} {fallback : Option (List Stmt)} {b : Block}
    {chain : Option Stmt} (nameRange comparison range : Range)
    (hthen : Agree RuntimeError.SameFault (Env.Padded (.single t v) 0)
      (Env.Padded (.single t v) 0) n
      (ontoEntry (some (g.before rest))) (of (.stmt (.block b))))
    (helse : Agree RuntimeError.SameFault (Env.Padded (.single t v) 0)
      (Env.Padded (.single t v) 0) n
      (of (.entry v (g.stmts ++ .break g.breakRange :: rest) fallback) >>= ontoEntry)
        (of (.stmt? chain))) :
    Agree RuntimeError.SameFault (Env.Padded (.single t v) 0) (Env.Padded (.single t v) 0) n
      (of (.entry v (g.before rest) fallback) >>= ontoEntry)
      (of (.stmt? (some
        (.ifElse (.binary (.compare .eq) (.name ⟨t, nameRange⟩) e comparison) (.block b) chain
          range)))) := by
  have hbefore : g.before rest =
      .caseLabel e g.labelRange :: (g.stmts ++ .break g.breakRange :: rest) := by
    simp [SwitchGroup.before, SwitchGroup.label, hvalue]
  have hexpr : (Task.expr e).Allowed (.apart (.single t v)) := .expr (Node.all_apart (he.apart v))
  rw [hbefore] at hthen ⊢
  refine .unfold ((Unfolds.later _).before _)
    (.unfold_right (unfolds_stmt?_some _) (.unfold_right (.later _) ?_))
  rw [later_entry_case, later_ifElse, bind_assoc]
  refine .unfold_right ((unfolds_comparison _ _ _ _).before _) ?_
  rw [bind_assoc]
  refine .unfold_right ((unfolds_name _).before _) ?_
  refine .skip_right (fun _ env' henv => ⟨env', lookup_of_padded henv _, henv⟩) ?_
  rw [bind_assoc]
  refine (Agree.padded RuntimeError.SameFault.refl hexpr
    (absurd · Bool.false_ne_true)).bind fun w => ?_
  rw [bind_assoc]
  cases hcompare : Value.binary (.compare .eq) v w with
  | error fault => exact .stop (RuntimeFault.sameFault_at fault _ _) fun _ _ henv => henv.sink
  | ok equal =>
    obtain ⟨holds, rfl⟩ := Value.eq_bool_of_compare hcompare
    cases holds with
    | true => exact hthen
    | false => exact helse

/-- The search for the entry and the chain, group by group. The default `d` was
found before them. -/
theorem agree_groups {last : Option (List Stmt)} {groups : List SwitchGroup}
    {chain : Option Stmt} (hchain : IfChain t last groups chain)
    (hgroups : Role.Avoid t (Stmt.allRoles (SwitchGroup.body groups))) {d : Option SwitchGroup}
    (after : List Stmt) (hd : ∀ g ∈ d, Role.Avoid t (Stmt.allRoles g.stmts))
    (hlast : last = (d <|> groups.find? (·.value.isNone)).map (·.stmts)) :
    Agree RuntimeError.SameFault (Env.Padded (.single t v) 0) (Env.Padded (.single t v) 0) n
      (of (.entry v (SwitchGroup.body groups) (d.map (·.before after))) >>= ontoEntry)
        (of (.stmt? chain)) := by
  induction hchain generalizing d after with
  | stop h =>
    cases d with
    | some g => simp [h] at hlast
    | none =>
      refine .unfold ((unfolds_entry_nil _).before _) (.unfold_right unfolds_stmt?_none ?_)
      rw [pure_bind]
      exact .pure _ fun _ _ h => h
  | last b h =>
    cases d with
    | none => simp [h] at hlast
    | some g =>
      have hb : b.stmts = g.stmts := by simpa [h] using hlast
      refine .unfold ((unfolds_entry_nil _).before _) (.unfold_right (unfolds_stmt?_some _) ?_)
      rw [pure_bind]
      exact agree_group (hd g rfl) after hb
  | default hvalue hrest ih =>
    rename_i g groups chain
    obtain ⟨-, hg, hgroups⟩ := SwitchGroup.avoid_before hgroups
    have hbody : SwitchGroup.body (g :: groups) =
        .defaultLabel g.labelRange ::
          (g.stmts ++ .break g.breakRange :: SwitchGroup.body groups) := by
      simp [SwitchGroup.body, SwitchGroup.before, SwitchGroup.label, hvalue]
    rw [hbody]
    refine .unfold ((unfolds_entry_default _ _ _).before _)
      (agree_entry_of_unlabelled _ g.unlabelled ?_)
    cases d with
    | some d => exact ih hgroups after hd (by simpa using hlast)
    | none =>
      have hfound : Option.map (·.before (SwitchGroup.body groups)) (some g) =
          some (.defaultLabel g.labelRange ::
            (g.stmts ++ .break g.breakRange :: SwitchGroup.body groups)) :=
        congrArg some hbody
      refine hfound ▸
        ih hgroups (d := some g) (SwitchGroup.body groups) ?_ (by simpa [hvalue] using hlast)
      rintro _ ⟨⟩
      exact hg
  | case b nameRange comparison range hvalue hb hrest ih =>
    rename_i g groups chain e
    obtain ⟨hg, hss, hgroups⟩ := SwitchGroup.avoid_before hgroups
    have hlabel : g.label.roles = .word "case" :: (e.roles ++ [.plain]) := by
      simp [SwitchGroup.label, hvalue, Stmt.roles]
    have he : Role.Avoid t e.roles := fun r hr => hg r (by simp [hlabel, hr])
    refine agree_case hvalue he nameRange comparison range (agree_group hss _ hb) ?_
    refine agree_entry_of_unlabelled _ g.unlabelled (ih hgroups after hd ?_)
    simpa [hvalue] using hlast

/-! ## The whole statement -/

/-- A chain is the last statement of its block. -/
theorem agree_chain {groups : List SwitchGroup} {chain : Option Stmt}
    (hchain : IfChain t (SwitchGroup.default? groups) groups chain)
    (hgroups : Role.Avoid t (Stmt.allRoles (SwitchGroup.body groups))) :
    Agree RuntimeError.SameFault (Env.Padded (.single t v) 0) (Env.Padded (.single t v) 0) n
      (of (.entry v (SwitchGroup.body groups) none) >>= ontoEntry) (of (.stmts chain.toList)) := by
  have hsearch :
      Agree RuntimeError.SameFault (Env.Padded (.single t v) 0) (Env.Padded (.single t v) 0) (n + 1)
      (of (.entry v (SwitchGroup.body groups) none) >>= ontoEntry) (of (.stmt? chain)) :=
    agree_groups hchain hgroups (d := none) [] (fun _ h => by cases h) rfl
  cases chain with
  | none => exact .unfold_right unfolds_stmts_nil (hsearch.fold_right unfolds_stmt?_none)
  | some s =>
    refine .unfold_right (unfolds_stmts_cons s []) ?_
    rw [← bind_pure (of (.entry v (SwitchGroup.body groups) none) >>= ontoEntry)]
    refine (hsearch.fold_right (unfolds_stmt?_some s)).bind fun flow => ?_
    cases flow with
    | normal => exact .unfold_right unfolds_stmts_nil (.pure _ fun _ _ h => h)
    | _ => exact .pure _ fun _ _ h => h

/-- A variable that is declared in an empty frame which was put in. -/
theorem add_of_padded {env env' : Env} (h : env.Padded {} 0 env')
    (hfuncs : env.Funcs (Func.Avoids t)) (range : Range) :
    ∃ last, add t ⟨.var, v⟩ range env' = .ok () last ∧ env.Padded (.single t v) 0 last := by
  obtain ⟨⟨inner, bottom⟩, sink, callDepth, maxCallDepth, cutting⟩ := env'
  obtain ⟨⟨hinner, hbottom⟩, hsink, hcallDepth, hmaxCallDepth, hcutting, -⟩ := h
  cases hinner
  refine ⟨_, rfl, ⟨.here _, hbottom⟩, hsink, hcallDepth, hmaxCallDepth, hcutting,
    fun y symbol hsymbol => ?_⟩
  exact Value.Funcs.imp (hfuncs y symbol hsymbol) fun f hf => Role.Avoid.apart hf v

theorem unfolds_declaration (x : Variable) (range : Range) :
    (of (.stmt (.decl (.var x) range))).Unfolds (do
      of (.declare false (.var x))
      return .normal) := .later _

/-- The declaration of a variable evaluates the initial value and binds the name. -/
theorem unfolds_declare {x : Variable} (hvar : x.constant = false) :
    (of (.declare false (.var x))).Unfolds (do
      let value ← of (.expr? x.init)
      steady (add x.ident.name ⟨.var, value⟩ x.range)) := by
  have hlater : (of (.declare false (.var x))).later = of (.expr? x.init) >>= fun value =>
      steady (add x.ident.name ⟨if x.constant then .const else .var, value⟩ x.range) := rfl
  simp only [hvar, Bool.false_eq_true, if_false] at hlater
  exact hlater ▸ .later _

/-- An expression leaves the functions of an environment as they are. -/
theorem funcs_of_expr {F : Func → Prop} {e : Expr} {env last : Env} {w : Value} (henv : env.Funcs F)
    (hrun : expr n e env = .ok w last) : last.Funcs F := by
  have he : (Task.expr e).Allowed (.holding F) := Task.allowed_holding trivial
  exact ((meets_perform n he).of_ok henv hrun).2

/-- The second environment has an empty frame more, and the first holds no function
that uses a name. -/
def Awaits (t : String) (env env' : Env) : Prop := env.Padded {} 0 env' ∧ env.Funcs (Func.Avoids t)

/-- The subject does not notice the frame that awaits the name. -/
theorem agree_subject (subject : Expr) :
    Agree RuntimeError.SameFault (Awaits t) (Awaits t) n (of (.expr subject))
      (of (.expr subject)) := by
  have happart : (Task.expr subject).Allowed (.apart {}) :=
    .expr (Node.all_apart (Frame.apart_empty _))
  exact (Agree.padded RuntimeError.SameFault.refl happart (absurd · Bool.false_ne_true)).keeping
    funcs_of_expr

section

variable {x : Variable} {subject : Expr} (hinit : x.init = some subject) (hvar : x.constant = false)
  {groups : List SwitchGroup} {chain : Option Stmt}
  (hchain : IfChain x.ident.name (SwitchGroup.default? groups) groups chain) {body : Block}
  (hbody : body.stmts = SwitchGroup.body groups) {range declRange : Range} {b : Block}
  (hb : b.stmts = .decl (.var x) declRange :: chain.toList)
  (hfresh : Role.Avoid x.ident.name (Stmt.switch subject body range).roles)

include hinit hvar hchain hbody hb hfresh

/-- A switch and its chain agree : both evaluate the subject first, and the chain binds it. -/
theorem agree_switch :
    Agree RuntimeError.SameFault (fun env env' => env = env' ∧ env.Funcs (Func.Avoids x.ident.name))
    Eq n (of (.stmt (.switch subject body range))) (of (.stmt (.block b))) := by
  have hgroups : Role.Avoid x.ident.name (Stmt.allRoles (SwitchGroup.body groups)) := by
    obtain ⟨stmts, scope, bodyRange⟩ := body
    obtain rfl : stmts = SwitchGroup.body groups := hbody
    exact fun r hr => hfresh r (by simp [Stmt.roles, Block.roles, hr])
  have hrest : Agree RuntimeError.SameFault (Awaits x.ident.name) Eq n
      (of (.expr subject) >>= fun v => of (.entry v (SwitchGroup.body groups) none) >>= ontoEntry)
      (of (.stmts (.decl (.var x) declRange :: chain.toList)) >>=
          fun flow => steady pop >>= fun _ => pure flow) := by
    refine .unfold_right ((unfolds_stmts_cons _ _).before _) ?_
    rw [bind_assoc]
    refine .unfold_right ((unfolds_declaration x declRange).before _) ?_
    rw [bind_assoc]
    refine .unfold_right ((unfolds_declare hvar).before _) ?_
    rw [bind_assoc, hinit]
    refine .unfold_right ((unfolds_expr?_some subject).before _)
      ((agree_subject subject).bind fun v => ?_)
    refine .skip_right (fun _ _ henv => add_of_padded henv.1 henv.2 _) ?_
    rw [pure_bind, ← bind_pure (of (.entry v (SwitchGroup.body groups) none) >>= ontoEntry)]
    refine (agree_chain hchain hgroups).bind fun flow => ?_
    exact .skip_pop (.pure _ fun _ _ h => h)
  refine .unfold (unfolds_switch _ _ _) (.unfold_right (unfolds_block b) ?_)
  rw [hb, hbody]
  refine .skip_right (b := ()) ?_ hrest
  rintro env _ ⟨rfl, hfuncs⟩
  exact ⟨env.opened, rfl, env.padded_opened, hfuncs⟩

/-- A switch without fall-through and a block that binds its subject to a name and executes a
chain of `if` statements which compare the name with the values of the cases. If the name is none
of the names and words of the switch and of the functions that can be called, both never end, or
both end in the same way in the same environment, or both stop for the same fault with the same
output. Only the place of a fault can differ, as a comparison belongs to a label in the one and to
a condition in the other. -/
theorem switch_as_chain {env : Env} (henv : env.Funcs (Func.Avoids x.ident.name)) :
    SameEnd RuntimeError.SameFault (stmt · (.switch subject body range)) (stmt · (.block b)) env :=
  Agree.sameEnd (fun _ => agree_switch hinit hvar hchain hbody hb hfresh) ⟨rfl, henv⟩

end

/-- The default comes first in the switch and last in the chain. No statement returns, so even the
name of the slot for results is free for the subject, although a function is called. -/
theorem switch_as_chain_default_first :
    let int (k : Int64) : Expr := .literal (.int k) .unknown
    let x : Expr := .name ⟨"x", .unknown⟩
    let assign (k : Int64) : Stmt := .expr (.binary .assign x (int k) .unknown) .unknown
    let f : Func :=
      ⟨⟨1⟩, ⟨"f", .unknown⟩, none, [], ⟨[assign 5], ⟨3⟩, .unknown⟩, ⟨0⟩, ⟨3⟩, .unknown⟩
    let other : SwitchGroup := ⟨none, [assign 9], .unknown, .unknown, by simp [Stmt.isLabel], rfl⟩
    let one : SwitchGroup :=
      ⟨some (int 1), [.expr (.call (.name f.ident) [] .unknown) .unknown], .unknown, .unknown,
        by simp [Stmt.isLabel], rfl⟩
    let body : Block := ⟨SwitchGroup.body [other, one], ⟨2⟩, .unknown⟩
    let y : Variable := ⟨⟨0⟩, ⟨resultName, .unknown⟩, none, some x, false, ⟨1⟩, .unknown⟩
    let chain : Stmt := .ifElse (.binary (.compare .eq) (.name y.ident) (int 1) .unknown)
      (.block ⟨one.stmts, ⟨4⟩, .unknown⟩) (some (.block ⟨other.stmts, ⟨5⟩, .unknown⟩)) .unknown
    let b : Block := ⟨[.decl (.var y) .unknown, chain], ⟨1⟩, .unknown⟩
    let env (k : Int64) : Env :=
      { stack := { bottom := ⟨[("f", ⟨.func, .function (.user f)⟩), ("x", ⟨.var, .int k⟩)]⟩ } }
    IfChain resultName (SwitchGroup.default? [other, one]) [other, one] (some chain) ∧
      Role.Avoid resultName (Stmt.switch x body .unknown).roles ∧
        (env 1).Funcs (Func.Avoids resultName) ∧
      stmt 20 (.switch x body .unknown) (env 1) = .ok .normal (env 5) ∧
      stmt 20 (.block b) (env 1) = .ok .normal (env 5) ∧
      SameEnd RuntimeError.SameFault (stmt · (.switch x body .unknown)) (stmt · (.block b))
          (env 1) := by
  intro int x assign f other one body y chain b env
  have hchain : IfChain resultName (SwitchGroup.default? [other, one]) [other, one] (some chain) :=
    .default rfl (.case _ .unknown .unknown .unknown rfl rfl (.last _ rfl))
  have hfresh : Role.Avoid resultName (Stmt.switch x body .unknown).roles := by
    decide
  have hf : Role.Avoid resultName f.roles := by
    decide
  have henv : (env 1).Funcs (Func.Avoids resultName) := by
    intro z symbol hsymbol
    obtain ⟨frame, hframe, hget⟩ := List.mem_filterMap.1 hsymbol
    obtain rfl : frame = (env 1).stack.bottom := by simpa [env, Stack.frames] using hframe
    obtain ⟨l₁, l₂, hl, -⟩ := List.lookup_eq_some_iff.1 hget
    have hentry : (z, symbol) ∈ (env 1).stack.bottom.entries :=
      hl ▸ List.mem_append_right l₁ List.mem_cons_self
    simp only [env, List.mem_cons, Prod.mk.injEq, List.not_mem_nil, or_false] at hentry
    obtain ⟨-, rfl⟩ | ⟨-, rfl⟩ := hentry
    · exact hf
    · trivial
  exact ⟨hchain, hfresh, henv, rfl, rfl,
    switch_as_chain (x := y) rfl rfl hchain rfl rfl hfresh henv⟩

end Eval

end Rill
