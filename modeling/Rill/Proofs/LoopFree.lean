import Rill.Proofs.Conduct
import Rill.Proofs.MoreSteps

/-!
# Programs without loops end

The number of steps goes down with every nested evaluation. Where there are no loops, what is nested
is a part of the tree or the body of a function, and the body runs one call deeper. So it is enough
to have steps for the size of the tree and, for each call that the limit still allows, for the size
of the largest function (`Eval.ends_perform`). Which function is called, and how often, does not
matter : a function is one of those that were declared, wherever it has been passed to, and it
cannot be called without the depth being counted up.
-/

namespace Rill

/-! ## Trees without loops -/

mutual

/-- There is no loop in a statement. -/
def Stmt.loopFree : Stmt → Bool
  | .decl d _ => d.loopFree
  | .block b => b.loopFree
  | .ifElse _ a b _ => a.loopFree && Stmt.loopFree? b
  | .whileDo .. | .doWhile .. | .forLoop .. => false
  | .switch _ body _ => body.loopFree
  | .expr .. | .caseLabel .. | .defaultLabel _ | .continue _ | .break _ | .return .. => true

/-- There is no loop in a statement that may be missing. -/
def Stmt.loopFree? : Option Stmt → Bool
  | none => true
  | some s => s.loopFree

/-- There is no loop in some statements. -/
def Stmt.allLoopFree : List Stmt → Bool
  | [] => true
  | s :: rest => s.loopFree && Stmt.allLoopFree rest

/-- There is no loop in a block. -/
def Block.loopFree : Block → Bool
  | ⟨stmts, _, _⟩ => Stmt.allLoopFree stmts

/-- There is no loop in a declaration. -/
def Decl.loopFree : Decl → Bool
  | .var _ => true
  | .func f => f.loopFree
  | .group g => g.loopFree

/-- There is no loop in some declarations. -/
def Decl.allLoopFree : List Decl → Bool
  | [] => true
  | d :: rest => d.loopFree && Decl.allLoopFree rest

/-- There is no loop in a function. -/
def Func.loopFree : Func → Bool
  | ⟨_, _, _, _, body, _, _, _⟩ => body.loopFree

/-- There is no loop in a group. -/
def Group.loopFree : Group → Bool
  | ⟨_, _, _, members, _, _, _, _⟩ => Decl.allLoopFree members

end

/-- There is no loop in a program. -/
def Program.loopFree (p : Program) : Bool := Decl.allLoopFree p.decls

/-- There is no loop in a script. -/
def Script.loopFree (s : Script) : Bool := Stmt.allLoopFree s.stmts

theorem Stmt.allLoopFree_eq (ss : List Stmt) : allLoopFree ss = ss.all loopFree := by
  induction ss with
  | nil => rfl
  | cons s rest ih => rw [allLoopFree, List.all_cons, ih]

theorem Decl.allLoopFree_eq (ds : List Decl) : allLoopFree ds = ds.all loopFree := by
  induction ds with
  | nil => rfl
  | cons d rest ih => rw [allLoopFree, List.all_cons, ih]

theorem Block.loopFree_eq (b : Block) : b.loopFree = b.stmts.all Stmt.loopFree := by
  obtain ⟨stmts, scope, range⟩ := b
  rw [loopFree, Stmt.allLoopFree_eq]

theorem Func.loopFree_eq (f : Func) : f.loopFree = f.body.loopFree := by
  obtain ⟨id, ident, type, params, body, scope, ownScope, range⟩ := f
  rw [loopFree]

theorem Group.loopFree_eq (g : Group) : g.loopFree = g.members.all Decl.loopFree := by
  obtain ⟨id, kind, ident, members, scope, ownScope, membersRange, range⟩ := g
  rw [loopFree, Decl.allLoopFree_eq]

/-- There is no loop in a node. -/
def Node.loopFree : Node → Bool
  | .stmt s => s.loopFree
  | .decl d => d.loopFree
  | .members g => g.loopFree
  | .ident _ | .expr _ | .param _ => true

/-- What is inside a node without loops has no loops. -/
theorem Node.loopFree_of_part {n c : Node} (h : n.loopFree = true) (hc : .node c ∈ n.parts) :
    c.loopFree = true := by
  have htype : ∀ {type}, .node c ∈ Part.ofType type → c.loopFree = true := by
    rintro (_ | _ | i) hc
    · cases hc
    · simp [Part.ofType] at hc
    · obtain rfl : c = .ident i := by simpa [Part.ofType] using hc
      rfl
  cases n with
  | ident i => simp [parts] at hc
  | expr e =>
    cases e with
    | literal | name => simp [parts, Part.ofExpr] at hc
    | unary op operand range =>
      simp only [parts, Part.ofExpr] at hc
      split at hc <;> simp at hc <;> rw [hc] <;> rfl
    | _ =>
      simp [parts, Part.ofExpr] at hc
      grind [loopFree]
  | param v =>
    rcases List.mem_append.1 hc with hc | hc
    · exact htype hc
    · obtain rfl : c = .ident v.ident := by simpa using hc
      rfl
  | stmt s =>
    simp only [loopFree] at h
    cases s with
    | ifElse cond a b range =>
      rw [Stmt.loopFree, Bool.and_eq_true] at h
      cases b <;> simp [parts, Part.ofStmt, Part.ofElse] at hc <;>
        grind [loopFree, Stmt.loopFree?]
    | whileDo | doWhile | forLoop => cases h
    | defaultLabel | «continue» | «break» => simp [parts, Part.ofStmt] at hc
    | _ =>
      simp [parts, Part.ofStmt] at hc
      grind [loopFree, Stmt.loopFree, Block.loopFree_eq]
  | decl d =>
    rw [loopFree] at h
    cases d with
    | var v =>
      simp only [parts, Part.ofDecl, List.mem_cons, List.mem_append] at hc
      rcases hc with hc | hc | hc | hc | hc
      · cases hc
      · exact htype hc
      · cases hc
        rfl
      · cases hinit : v.init <;> simp [hinit, Part.ofInit] at hc
        rw [hc, loopFree]
      · simp at hc
    | func f =>
      rw [Decl.loopFree, Func.loopFree_eq] at h
      simp only [parts, Part.ofDecl, List.mem_cons, reduceCtorEq, List.mem_append, Part.node.injEq,
        Part.node_mem_separated, List.mem_map, List.not_mem_nil, or_false, false_or] at hc
      rcases hc with hc | rfl | ⟨v, hv, rfl⟩ | rfl
      · exact htype hc
      · rfl
      · rfl
      · rwa [loopFree, Stmt.loopFree]
    | group g =>
      rw [Decl.loopFree] at h
      simp only [parts, Part.ofDecl, List.mem_cons, reduceCtorEq, Part.node.injEq,
        List.not_mem_nil, or_false, false_or] at hc
      rcases hc with rfl | rfl
      · rfl
      · exact h
  | members g =>
    rw [loopFree, Group.loopFree_eq, List.all_eq_true] at h
    simp only [parts, List.mem_cons, reduceCtorEq, List.mem_append, List.mem_map, Part.node.injEq,
      false_or, List.not_mem_nil, or_false] at hc
    obtain ⟨d, hd, rfl⟩ := hc
    exact h d hd

/-- A function without loops and not larger than a bound. -/
structure Func.Bounded (bound : Nat) (f : Func) : Prop where
  loopFree : f.loopFree = true
  size : sizeOf f ≤ bound

/-- Trees without loops, and functions not larger than a bound. -/
def Contract.loopFree (bound : Nat) : Contract where
  node n := n.loopFree = true
  func := Func.Bounded bound
  jump _ := True
  nodes _ hf := .of_parts Node.loopFree_of_part hf.loopFree
  jumps _ _ _ _ := trivial

theorem Contract.not_loop_loopFree (bound : Nat) : ¬(Contract.loopFree bound).loop := by
  rintro ⟨s, hs, hloop⟩
  cases s with
  | whileDo | doWhile | forLoop => cases hs
  | _ => cases hloop

namespace Eval

/-! ## Evaluation -/

/-- The calls that the limit still allows. -/
def callsLeft (env : Env) : Nat := env.maxCallDepth - env.callDepth

/-- A task on a tree without loops is no loop. -/
theorem not_isLoop_of_allowed {bound : Nat} {t : Task} (h : t.Allowed (.loopFree bound)) :
    t.isLoop = false := by
  cases t with
  | loop | doLoop => exact absurd h.uses (Contract.not_loop_loopFree bound)
  | _ => rfl

/-- What is started takes fewer steps : it is smaller, or it is a function and there is one call
less that the limit still allows. -/
theorem Deeds.StartsIn.steps_lt {d : Deeds} {bound m : Nat} {env : Env} {p : Task × Env}
    (h : d.StartsIn (.loopFree bound) env p) (hsize : d.starts p.1 → p.1.size < m) :
    p.1.size + callsLeft p.2 * (bound + 1) < m + callsLeft env * (bound + 1) := by
  rcases h.kind with ⟨hstarts, hdepth⟩ | ⟨f, args, hrun, hlimit, hdepth⟩
  · have hcalls : callsLeft p.2 = callsLeft env := by
      rw [callsLeft, h.maxCallDepth, hdepth, callsLeft]
    have hless := hsize hstarts
    rw [hcalls]
    omega
  · have hbound : p.1.size ≤ bound := by
      have hallowed := h.allowed
      rw [hrun] at hallowed ⊢
      exact hallowed.uses.1.size
    have hcalls : callsLeft env = callsLeft p.2 + 1 := by
      simp only [callsLeft, h.maxCallDepth, hdepth]
      omega
    rw [hcalls, Nat.succ_mul]
    omega

/-- A task without loops ends if it has a step for each part of its own tree and, for each call that
the limit still allows, for each part of the largest function. -/
theorem ends_perform {bound n : Nat} {t : Task} {env : Env} (ht : t.Allowed (.loopFree bound))
    (henv : env.Funcs (Func.Bounded bound)) (hn : t.size + callsLeft env * (bound + 1) < n) :
    spent (t.perform n env) = false := by
  induction n generalizing t env with
  | zero => exact absurd hn (Nat.not_lt_zero _)
  | succ n ih =>
    rw [Task.spent_perform, List.any_eq_false]
    intro p hp
    have hpart := Task.meets_parts ht henv p hp
    have hsteps := hpart.steps_lt fun habove => habove (not_isLoop_of_allowed ht)
    rw [Bool.not_eq_true]
    exact ih hpart.allowed hpart.funcs (by omega)

/-! ## Programs and scripts -/

/-- What starts only tasks without loops and up to a size ends. -/
theorem exists_ends {bound : Nat} {run : Nat → Eval Value} {env : Env}
    {parts : Nat → List (Task × Env)} (htraced : ∀ n, Traced n run env (parts n))
    (hparts : ∀ n, ∀ p ∈ parts n, (Deeds.upTo bound).StartsIn (.loopFree bound) env p)
    (hlasts : ∀ {n m}, n ≤ m → Lasts (run n) (run m)) : ∃ r, Ends run env r := by
  obtain ⟨n, hn⟩ : ∃ n, n = bound + 1 + callsLeft env * (bound + 1) := ⟨_, rfl⟩
  have hspent : spent (run n env) = false := by
    rw [(htraced n).spent, List.any_eq_false]
    intro p hp
    have hpart := hparts n p hp
    have hsteps := hpart.steps_lt fun hsize => Nat.lt_succ_of_le hsize
    rw [Bool.not_eq_true]
    exact ends_perform hpart.allowed hpart.funcs (by omega)
  refine ⟨run n env, ends_of_lasts hlasts rfl fun env' hout => ?_⟩
  rw [hout] at hspent
  cases hspent

/-- A program without loops ends. -/
theorem exists_ends_program {p : Program} (hp : p.loopFree = true) (config : Config) (sink : Sink) :
    ∃ r, Ends (fun n => p.run n) (.start config sink) r := by
  rw [Program.loopFree, Decl.allLoopFree_eq, List.all_eq_true] at hp
  have hnodes : ∀ d ∈ p.decls, (Node.decl d).All fun n => n.loopFree = true := fun d hd =>
    .of_parts Node.loopFree_of_part (hp d hd)
  have hfuncs : ∀ f, .func f ∈ p.decls → f.Bounded (sizeOf p.decls) := by
    intro f hf
    have hfree := hp _ hf
    have hsize := List.sizeOf_lt_of_mem hf
    rw [Decl.loopFree] at hfree
    simp only [Decl.func.sizeOf_spec] at hsize
    exact ⟨hfree, by omega⟩
  have hplan := meets_programPlan (c := .loopFree (sizeOf p.decls)) hnodes hfuncs trivial
  exact exists_ends (traced_program · p _)
    (fun n => Plan.meets_parts hplan (Env.funcs_start config sink)) (lasts_program · p)

theorem exists_ends_outerStmts {ss : List Stmt} (hss : Stmt.allLoopFree ss = true)
    (config : Config) (sink : Sink) :
    ∃ r, Ends (fun n => outerStmts n ss) (.start config sink) r := by
  rw [Stmt.allLoopFree_eq, List.all_eq_true] at hss
  have hnodes : ∀ s ∈ ss, (Node.stmt s).All fun n => n.loopFree = true := fun s hs =>
    .of_parts Node.loopFree_of_part (hss s hs)
  have hfuncs : ∀ f range, .decl (.func f) range ∈ ss → f.Bounded (sizeOf ss) := by
    intro f range hf
    have hfree := hss _ hf
    have hsize := List.sizeOf_lt_of_mem hf
    rw [Stmt.loopFree, Decl.loopFree] at hfree
    simp only [Stmt.decl.sizeOf_spec, Decl.func.sizeOf_spec] at hsize
    exact ⟨hfree, by omega⟩
  have hplan := meets_outerPlan (c := .loopFree (sizeOf ss)) (Nat.le_refl _) hnodes hfuncs
    fun _ _ => trivial
  exact exists_ends (traced_outerStmts · ss _)
    (fun n => Plan.meets_parts hplan (Env.funcs_start config sink)) (lasts_outerStmts · ss)

/-- Programs and scripts without loops end, with a value or with an error, whatever the limit of the
call depth is : however their functions call each other, are passed on and call themselves. -/
theorem loopFree_ends (config : Config) (sink : Sink) :
    (∀ p : Program, p.loopFree = true → ∃ r, Ends (fun n => p.run n) (.start config sink) r) ∧
      ∀ s : Script, s.loopFree = true → ∃ r, Ends (fun n => s.run n) (.start config sink) r :=
  ⟨fun _ hp => exists_ends_program hp config sink,
    fun _ hs => exists_ends_outerStmts hs config sink⟩

/-- A function that calls what it is given with itself, given itself : only the limit of the call
depth ends it, in a program and in a script that comes to it by a `switch`. -/
theorem loopFree_ends_selfApplied :
    let name (x : String) : Expr := .name ⟨x, .unknown⟩
    let apply (x y : String) : Stmt := .return (some (.call (name x) [name y] .unknown)) .unknown
    let func (x : String) (params : List Variable) (body : List Stmt) : Func :=
      ⟨⟨0⟩, ⟨x, .unknown⟩, none, params, ⟨body, ⟨1⟩, .unknown⟩, ⟨0⟩, ⟨1⟩, .unknown⟩
    let param : Variable := ⟨⟨1⟩, ⟨"g", .unknown⟩, none, none, false, ⟨1⟩, .unknown⟩
    let self := func "f" [param] [apply "g" "g"]
    let program : Program :=
      ⟨[.func self, .func (func "main" [] [apply "f" "f"])], .unknown, .initial, .empty⟩
    let choice : Stmt := .switch (.literal (.int 1) .unknown)
      ⟨[.caseLabel (.literal (.int 1) .unknown) .unknown, apply "f" "f"], ⟨1⟩, .unknown⟩ .unknown
    let script : Script := ⟨[.decl (.func self) .unknown, choice], .unknown, .initial, .empty⟩
    let config : Config := { maxCallDepth := 100000 }
    (program.loopFree = true ∧ ∃ r, Ends (fun n => program.run n) (.start config {}) r) ∧
      (script.loopFree = true ∧ ∃ r, Ends (fun n => script.run n) (.start config {}) r) := by
  intro name apply func param self program choice script config
  have hprogram : program.loopFree = true := rfl
  have hscript : script.loopFree = true := rfl
  have hends := loopFree_ends config {}
  exact ⟨⟨hprogram, hends.1 program hprogram⟩, ⟨hscript, hends.2 script hscript⟩⟩

end Eval

end Rill
