import Rill.Proofs.Extent
import Rill.Proofs.Globals
import Rill.Proofs.Joined
import Rill.Proofs.Layout
import Rill.Proofs.MoreSteps
import Rill.Proofs.Onward

/-!
# Programs and scripts

A program runs as the script does that has the same declarations and then returns the value of a
call of `main` (`Buffer.modes_agree`). The text of the script is that of the program, a line
break and `return main();`.

The tokens of the longer text are those of the program and five more, and they are read in the same
way, so the statements of the script are the declarations of the program and the call. The
declarations are bound in the same way. A program then takes `main` from the environment, where it
still is the function that was declared, and calls it directly. The script comes to the same call by
way of a statement and two expressions, for which it needs three steps more.
-/

namespace Rill

/-- The statement that calls `main` and returns its value. -/
def Stmt.callMain (name call whole : Range) : Stmt :=
  .return (some (.call (.name ⟨"main", name⟩) [] call)) whole

/-- The statements that declare some declarations. -/
def Declares (ds : List Decl) (ss : List Stmt) : Prop :=
  List.Forall₂ (fun d s => ∃ range, s = .decl d range) ds ss

/-! ## Runs -/

theorem Ending.told_eq_none {e : Ending} : e.told = none ↔ e = .exhausted := by
  cases e <;> simp [told]

namespace Outcome.Alike

variable {o o' o'' : Outcome}

theorem refl (o : Outcome) : o.Alike o := ⟨rfl, rfl⟩

theorem trans (h : o.Alike o') (h' : o'.Alike o'') : o.Alike o'' := ⟨h.1.trans h'.1, h.2.trans h'.2⟩

/-- Of two alike outcomes, both have used up their steps or none has. -/
theorem exhausted_iff (h : o.Alike o') : o.ending = .exhausted ↔ o'.ending = .exhausted := by
  rw [← Ending.told_eq_none, h.2, Ending.told_eq_none]

end Outcome.Alike

namespace Eval

variable {α : Type} {n : Nat} {env env' : Env}

/-- After a step that succeeds, the outcome is that of what follows. -/
theorem outcome_of_ok {act : Eval α} {k : α → Eval Value} {a : α} (h : act env = .ok a env') :
    (act >>= k).outcome env = (k a).outcome env' := by
  unfold outcome
  rw [bind_of_ok h]

/-- After a step that stops, the outcome is that of the stop. -/
theorem outcome_of_error {act : Eval α} {k : α → Eval Value} {stop : Stop}
    (h : act env = .error stop env') :
    (act >>= k).outcome env = (throw stop : Eval Value).outcome env' := by
  unfold outcome
  rw [bind_of_error h]
  rfl

/-- Results that differ at most in the place of an error. -/
inductive SameButPlace : EStateM.Result Stop Env α → EStateM.Result Stop Env α → Prop
  | refl (r : EStateM.Result Stop Env α) : SameButPlace r r
  | failed (fault : RuntimeFault) (range range' : Range) (env : Env) :
      SameButPlace (.error (.failed ⟨fault, range⟩) env) (.error (.failed ⟨fault, range'⟩) env)

/-- Results that differ at most in the place of an error make alike outcomes. -/
theorem SameButPlace.outcome_alike {act act' : Eval Value} (h : SameButPlace (act env) (act' env)) :
    (act.outcome env).Alike (act'.outcome env) := by
  unfold outcome
  generalize act env = r at h
  generalize act' env = r' at h
  cases h with
  | refl => exact .refl _
  | failed fault range range' env => exact ⟨rfl, rfl⟩

/-- The place of a call is told only with an error. -/
theorem call_sameButPlace (f : Func) (args : List Value) (range range' : Range) :
    SameButPlace (call n f args range env) (call n f args range' env) := by
  cases n with
  | zero => exact .refl _
  | succ n =>
    simp only [call]
    split
    · exact .failed _ range range' env
    · by_cases hlimit : env.maxCallDepth ≤ env.callDepth
      · rw [calling_of_limit range hlimit, calling_of_limit range' hlimit]
        exact .failed _ range range' env
      · cases hrun : run n f args env.deeper with
        | ok v env' =>
          rw [calling_of_ok range hlimit hrun, calling_of_ok range' hlimit hrun]
          exact .refl _
        | error stop env' =>
          rw [calling_of_error range hlimit hrun, calling_of_error range' hlimit hrun]
          exact .refl _

/-- To set a name does not change what is told. -/
theorem outcome_set (act : Eval Value) (name : String) :
    (do
      let v ← act
      set name v
      return v).outcome env = act.outcome env := by
  cases h : act env with
  | ok v env' =>
    rw [outcome_of_ok h]
    simp only [outcome, h]
    rfl
  | error stop env' =>
    rw [outcome_of_error h]
    simp only [outcome, h]
    rfl

/-- Statements that only declare do what the declarations do, and then the rest follows. -/
theorem outerStmts_declares {ds : List Decl} {ss : List Stmt} (h : Declares ds ss)
    (rest : List Stmt) :
    outerStmts n (ss ++ rest) = declareAll n ds >>= fun _ => outerStmts n rest := by
  induction h with
  | nil => rfl
  | cons hd _ ih =>
    obtain ⟨range, rfl⟩ := hd
    simp only [List.cons_append, outerStmts, outerStmt, declareAll, bind_assoc, pure_bind, ih]

variable {f : Func} {name place whole : Range}

/-- With `main` bound to a function, the statement calls it. -/
theorem outerStmts_callMain {kind : SymbolKind}
    (h : env.stack.find? "main" = some ⟨kind, .function (.user f)⟩) :
    outerStmts (n + 4) [.callMain name place whole] env =
      (do
        let v ← call (n + 1) f [] place
        set resultName v
        return v) env := by
  have hfind : find? "main" env = .ok (some ⟨kind, .function (.user f)⟩) env :=
    congrArg (EStateM.Result.ok · env) h
  have hname : expr (n + 1) (.name ⟨"main", name⟩) env = .ok (.function (.user f)) env :=
    bind_of_ok hfind
  have hexpr : expr? (n + 3) (some (.call (.name ⟨"main", name⟩) [] place)) env =
      call (n + 1) f [] place env :=
    bind_of_ok hname
  cases hcall : call (n + 1) f [] place env with
  | ok v env' =>
    have hstmt :=
      bind_of_ok (k := fun v => do set resultName v; return Flow.return v) (hexpr.trans hcall)
    rw [bind_of_ok hcall]
    exact bind_of_ok hstmt
  | error stop env' =>
    have hstmt :=
      bind_of_error (k := fun v => do set resultName v; return Flow.return v) (hexpr.trans hcall)
    rw [bind_of_error hcall]
    exact bind_of_error hstmt

/-- A script that ends with a call of `main` has the outcome of the call. -/
theorem outcome_callMain {kind : SymbolKind}
    (h : env.stack.find? "main" = some ⟨kind, .function (.user f)⟩) :
    (outerStmts (n + 4) [.callMain name place whole]).outcome env =
      (call (n + 1) f [] place).outcome env := by
  rw [← outcome_set (call (n + 1) f [] place) resultName]
  unfold outcome
  rw [outerStmts_callMain h]

/-- Three steps do not suffice to come to the call. -/
theorem outerStmts_callMain_of_le (h : n ≤ 3) :
    outerStmts n [.callMain name place whole] env = .error .exhausted env := by
  obtain rfl | rfl | rfl | rfl : n = 0 ∨ n = 1 ∨ n = 2 ∨ n = 3 := by omega
  all_goals rfl

/-- A program goes on with the function that `main` is bound to. -/
theorem outcome_mainFunction {k : Func → Eval Value}
    (h : env.stack.find? "main" = some ⟨.func, .function (.user f)⟩) :
    (mainFunction >>= k).outcome env = (k f).outcome env := by
  have hfind : find? "main" env = .ok (some ⟨.func, .function (.user f)⟩) env :=
    congrArg (EStateM.Result.ok · env) h
  have hmain : mainFunction env = .ok f env := bind_of_ok hfind
  exact outcome_of_ok hmain

section

variable {p : Program} {s : Script} {ss : List Stmt}
  (hs : s.stmts = ss ++ [.callMain name place whole])
  (hss : Declares p.decls ss) (hf : .func f ∈ p.decls) (hname : f.ident.name = "main")
  (hinner : env.stack.inner = [])

include hs hss hf hname hinner

/-- A program that ends, ends as the script does with three steps more. -/
theorem script_of_program (hends : ((p.run n).outcome env).ending ≠ .exhausted) :
    ((p.run n).outcome env).Alike ((s.run (n + 3)).outcome env) := by
  have hscript : s.run (n + 3) = declareAll (n + 3) p.decls >>= fun _ =>
      outerStmts (n + 3) [.callMain name place whole] := by
        rw [Script.run, hs, outerStmts_declares hss]
  have hmore := lasts_declareAll (Nat.le_add_right n 3) p.decls
  rw [hscript]
  rw [Program.run] at hends ⊢
  cases hdeclare : declareAll n p.decls env with
  | error stop env' =>
    rw [outcome_of_error hdeclare] at hends ⊢
    cases stop with
    | exhausted => exact absurd rfl hends
    | failed e =>
      rw [outcome_of_error (hmore.eq_of_failed hdeclare)]
      exact .refl _
  | ok _ env' =>
    have hmain := find?_main_of_declareAll hdeclare hinner hf hname
    rw [outcome_of_ok hdeclare, outcome_mainFunction hmain] at hends ⊢
    rw [outcome_of_ok (hmore.eq_of_ok hdeclare)]
    cases n with
    | zero => exact absurd rfl hends
    | succ n =>
      rw [outcome_callMain hmain]
      exact (call_sameButPlace f [] f.range place).outcome_alike

/-- A script that ends, ends as the program does with as many steps. -/
theorem program_of_script (hends : ((s.run n).outcome env).ending ≠ .exhausted) :
    ((p.run n).outcome env).Alike ((s.run n).outcome env) := by
  have hscript : s.run n =
      declareAll n p.decls >>= fun _ => outerStmts n [.callMain name place whole] := by
    rw [Script.run, hs, outerStmts_declares hss]
  rw [hscript] at hends ⊢
  rw [Program.run]
  cases hdeclare : declareAll n p.decls env with
  | error stop env' =>
    rw [outcome_of_error hdeclare, outcome_of_error hdeclare]
    exact .refl _
  | ok _ env' =>
    have hmain := find?_main_of_declareAll hdeclare hinner hf hname
    rw [outcome_of_ok hdeclare] at hends
    rw [outcome_of_ok hdeclare, outcome_of_ok hdeclare, outcome_mainFunction hmain]
    by_cases hn : n ≤ 3
    · refine absurd ?_ hends
      unfold outcome
      rw [outerStmts_callMain_of_le hn]
    · obtain ⟨n, rfl⟩ : ∃ m, n = m + 4 := ⟨n - 4, by omega⟩
      rw [outcome_callMain hmain] at hends ⊢
      have hcall : (call (n + 4) f [] place).outcome env' =
          (call (n + 1) f [] place).outcome env' := by
        rcases lasts_perform (Nat.add_le_add_left (by decide : 1 ≤ 4) n)
            (.call f [] place) env' with
          ⟨env'', hout⟩ | heq
        · refine absurd ?_ hends
          unfold outcome
          rw [show call (n + 1) f [] place env' = .error .exhausted env'' from hout]
        · unfold outcome
          rw [show call (n + 4) f [] place env' = call (n + 1) f [] place env' from heq]
      rw [← hcall]
      exact (call_sameButPlace f [] f.range place).outcome_alike

end

end Eval

/-! ## Texts -/

namespace Parser

/-- A parser at the start of some lexemes, wherever they stand. -/
def ofLexemes (ls : List Lexeme) : Parser where
  current := ls.head?.map (⟨·, .unknown⟩)
  upcoming := .ofItems [] (ls.tail.map fun l => .ok ⟨l, .unknown⟩)
  previousEnd := .origin
  sourceEnd := .origin
  names := .initial
  scopes := .empty
  scope := .global
  nextDecl := 0

variable {ls : List Lexeme}

theorem remaining_ofLexemes :
    (ofLexemes ls).upcoming.remaining = ls.tail.map fun l => .ok ⟨l, .unknown⟩ := by
  rw [ofLexemes, Filter.remaining_ofItems, List.filter_eq_self]
  intro i hi
  obtain ⟨l, -, rfl⟩ := List.mem_map.1 hi
  rfl

theorem reads_ofLexemes : (ofLexemes ls).Reads (ls.map (⟨·, .unknown⟩)) := by
  cases ls with
  | nil => rfl
  | cons l ls =>
    rw [Reads, ahead_of_current rfl, remaining_ofLexemes]
    simp

/-- A parser over lexemes begins as one does that has more lexemes at its end. -/
theorem begins_ofLexemes (more : List Lexeme) :
    (ofLexemes ls).Begins (more.map (⟨·, .unknown⟩)) (ofLexemes (ls ++ more)) := by
  refine ⟨⟨_, reads_ofLexemes, ?_⟩, rfl, rfl, rfl, rfl⟩
  rw [← List.map_append]
  exact reads_ofLexemes

theorem fuel_ofLexemes (ls : List Lexeme) : (ofLexemes ls).fuel = 8 * (ls.length - 2 + 3) := by
  cases ls with
  | nil => rfl
  | cons l ls =>
    cases ls with
    | nil => rfl
    | cons l' ls => simp [fuel, ofLexemes, Filter.ofItems, Filter.pull, Filter.leavesOut]

/-- At the end of the shorter text, the rest lies ahead in the longer one. -/
theorem Begins.reads_of_isEmpty {rest : List Token} {p p' : Parser} (h : p.Begins rest p')
    (hempty : p.isEmpty) : p'.Reads rest := by
  obtain ⟨ts, hp, hp'⟩ := h.ahead
  cases ts with
  | nil => exact hp'
  | cons t ts => simp [Parser.isEmpty, hp.current] at hempty

theorem Alike.symm {p p' : Parser} (h : p.Alike p') : p'.Alike p :=
  ⟨h.current.symm, h.upcoming.symm, h.names.symm, h.scopes.symm, h.scope.symm, h.nextDecl.symm⟩

/-- A buffer whose tokens hold these lexemes is read like them. -/
theorem alike_ofLexemes {b : Buffer} {ts : List Token} (h : b.tokens = .ok ts) :
    (ofBuffer b).Alike (ofLexemes (ts.map Token.lexeme)) := by
  have hremaining := Buffer.tokens_eq_ok.1 h
  refine ⟨?_, ?_, rfl, rfl, rfl, rfl⟩
  · cases ts <;> simp [ofBuffer, ofLexemes, hremaining]
  · rw [remaining_ofLexemes]
    cases ts <;> simp [ofBuffer, hremaining, Function.comp_def, Item.content]

end Parser

namespace Parse

/-- If steps agree and one succeeds, so does the other. -/
theorem Agree.exists_ok {α : Type} {act act' : Parse α} {p p' q : Parser} {a : α}
    {post : α → α → Parser → Parser → Prop} (h : Agree act act' p p' post)
    (hact : act p = .ok a q) :
    ∃ a' q', act' p' = .ok a' q' ∧ post a a' q q' := by
  unfold Agree at h
  rw [hact] at h
  cases hact' : act' p' with
  | ok a' q' =>
    rw [hact'] at h
    exact ⟨a', q', rfl, h⟩
  | error e q' =>
    rw [hact'] at h
    exact h.elim

section

variable {α : Type} {stop : Parser → Bool} {item : Parse α} {p q r : Parser} {n : Nat}

theorem itemsUntil_of_stop (h : stop p) : itemsUntil stop item (n + 1) p = .ok [] p := by
  change (if stop p then _ else _ : Parse (List α)) p = _
  rw [if_pos h]
  rfl

/-- An item that is read comes before those that are read after it. -/
theorem itemsUntil_of_ok {x : α} {xs : List α} (hstop : ¬stop p) (hitem : item p = .ok x q)
    (hitems : itemsUntil stop item n q = .ok xs r) :
    itemsUntil stop item (n + 1) p = .ok (x :: xs) r := by
  change (if stop p then _ else _ : Parse (List α)) p = _
  rw [if_neg hstop]
  simp only [Bind.bind, EStateM.bind, hitem, hitems]
  rfl

end

/-- Declarations up to the end of a text are statements at the beginning of a longer one. -/
theorem statements_of_declarations {rest : List Token} {n n' m : Nat} {p p' q : Parser}
    {ds : List Decl} (hn : n ≤ n')
    (h : itemsUntil Parser.isEmpty (declaration (statement .standard n)) m p = .ok ds q)
    (hp : p.Begins rest p') :
    ds.length < m ∧ ∃ ss q', q.isEmpty ∧ q.Begins rest q' ∧ Declares ds ss ∧ ∀ j more r,
      itemsUntil Parser.isEmpty (statement .standard n') j q' = .ok more r →
        itemsUntil Parser.isEmpty (statement .standard n') (ds.length + j) p' =
          .ok (ss ++ more) r := by
  induction m generalizing p p' ds with
  | zero => cases h
  | succ m ih =>
    obtain ⟨p₀, p₁, hget, h⟩ := ok_of_bind h
    obtain ⟨rfl, rfl⟩ := EStateM.Result.ok.inj hget
    by_cases hempty : p.isEmpty
    · rw [if_pos hempty] at h
      obtain ⟨rfl, rfl⟩ := EStateM.Result.ok.inj h
      exact ⟨Nat.succ_pos m, [], p', hempty, hp, .nil, fun j more r hmore => by simpa using hmore⟩
    · rw [if_neg hempty] at h
      obtain ⟨d, p₁, hd, h⟩ := ok_of_bind h
      obtain ⟨ds, q, hds, h⟩ := ok_of_bind h
      obtain ⟨rfl, rfl⟩ := EStateM.Result.ok.inj h
      obtain ⟨range, hstmt⟩ := ok_of_declaration hd
      -- a declaration is complete at its last token, so it may also be the last of the text
      obtain ⟨hsome, hcarry⟩ := carries_statement hn _ _ hstmt (.inl rfl)
      obtain ⟨p₁', hstmt', hp₁⟩ := hcarry p' hp
      obtain ⟨hlen, ss, q', hq, hbegins, hdeclares, hrest⟩ := ih hds hp₁
      refine ⟨Nat.succ_lt_succ hlen, .decl d range :: ss, q', hq, hbegins,
        .cons ⟨range, rfl⟩ hdeclares, ?_⟩
      intro j more r hmore
      have hempty' : ¬p'.isEmpty := by rwa [hp.isEmpty hsome]
      rw [List.length_cons, Nat.succ_add]
      exact itemsUntil_of_ok hempty' hstmt' (hrest j more r hmore)

/-! ## The last statement -/

/-- The lexemes of `return main();`. -/
def callMainLexemes : List Lexeme :=
  [.identifier "return", .identifier "main", .punctuation "(", .punctuation ")", .punctuation ";"]

/-- What is `return main();` but for labels is a statement that calls `main`. -/
theorem exists_callMain_of_plain {s : Stmt} {name call whole : Range}
    (h : s.relabel .plain = (Stmt.callMain name call whole).relabel .plain) :
    ∃ name call whole, s = .callMain name call whole := by
  cases s with
  | «return» value whole =>
    simp only [Stmt.callMain, Stmt.relabel, Stmt.return.injEq, Option.map_eq_some_iff,
      Option.map_some] at h
    obtain ⟨⟨e, rfl, he⟩, -⟩ := h
    cases e with
    | call callee args call =>
      cases callee with
      | name ident =>
        cases args with
        | nil =>
          obtain ⟨text, name⟩ := ident
          simp only [Expr.mapRange, Ident.mapRange, Expr.call.injEq, Expr.name.injEq,
            Ident.mk.injEq] at he
          obtain ⟨⟨rfl, -⟩, -⟩ := he
          exact ⟨name, call, whole, rfl⟩
        | cons => simp [Expr.mapRange, Expr.mapRangeAll] at he
      | _ => simp [Expr.mapRange] at he
    | _ => simp [Expr.mapRange] at he
  | _ => simp [Stmt.callMain, Stmt.relabel] at h

/-- Nineteen steps suffice to read the call, which has five tokens. -/
theorem succeeds_callMain {p : Parser} {n : Nat} (h : p.Reads (callMainLexemes.map (⟨·, .unknown⟩)))
    (hn : 19 ≤ n) :
    (statement .standard n).Succeeds p fun s q =>
      (∃ name call whole, s = .callMain name call whole) ∧ q.isEmpty := by
  have hread : (Stmt.callMain .unknown .unknown .unknown).Readable := by
    refine Stmt.readable_return (fun e he => ?_) .unknown
    obtain rfl := Option.some.inj he
    exact ⟨trivial, ⟨rfl, rfl⟩, trivial⟩
  have hspells : p.Spells ((Stmt.callMain .unknown .unknown .unknown).spelling ++ []) :=
    ⟨callMainLexemes.map (⟨·, .unknown⟩),
      .cons rfl (.cons rfl (.cons rfl (.cons rfl (.cons rfl .nil)))), h⟩
  refine (hread hspells hn fun hopen => absurd hopen (by decide)).mono fun s q => ?_
  rintro ⟨hs, hq⟩
  exact ⟨exists_callMain_of_plain hs, by rw [Parser.isEmpty, hq.current_nil]; rfl⟩

/-- Where a program is read, a script with the call after it has its declarations and
then the call. -/
theorem succeeds_script_of_program {u : Program} {p p' q : Parser}
    (h : program .standard p = .ok u q) (hp : p.Begins (callMainLexemes.map (⟨·, .unknown⟩)) p')
    (hfuel : p.fuel + 19 ≤ p'.fuel) :
    (script .standard).Succeeds p' fun s _ =>
      ∃ ss name call whole, s.stmts = ss ++ [.callMain name call whole] ∧ Declares u.decls ss := by
  obtain ⟨p₀, p₁, hget, h⟩ := ok_of_bind h
  obtain ⟨rfl, rfl⟩ := EStateM.Result.ok.inj hget
  obtain ⟨ds, q₁, hds, h⟩ := ok_of_bind h
  obtain ⟨rfl, -⟩ := EStateM.Result.ok.inj h
  obtain ⟨hlen, ss, q', hempty, hq', hdeclares, hrest⟩ :=
    statements_of_declarations (Nat.le_of_add_right_le hfuel) hds hp
  have hreads := hq'.reads_of_isEmpty hempty
  have hsome : ¬q'.isEmpty := by simp [Parser.isEmpty, hreads.current]
  obtain ⟨_, r, hs, ⟨name, call, whole, rfl⟩, hr⟩ :=
    succeeds_callMain hreads (Nat.le_of_add_left_le hfuel)
  obtain ⟨k, hk⟩ : ∃ k, p'.fuel = ds.length + (k + 1 + 1) := ⟨p'.fuel - ds.length - 2, by omega⟩
  have hstmts : (itemsUntil Parser.isEmpty (statement .standard p'.fuel) p'.fuel).Succeeds p'
      fun stmts _ => stmts = ss ++ [.callMain name call whole] := by
    have hlast := hrest (k + 1 + 1) _ r (itemsUntil_of_ok hsome hs (itemsUntil_of_stop hr))
    rw [← hk] at hlast
    exact ⟨_, r, hlast, rfl⟩
  refine Succeeds.get (hstmts.bind fun stmts q hq => Succeeds.get (Succeeds.pure ?_))
  exact ⟨ss, name, call, whole, hq, hdeclares⟩

end Parse

/-! ## Agreement -/

/-- Programs that differ in ranges only have alike outcomes. -/
theorem Program.outcomes_alike {u u' : Program} (h : u.bare = u'.bare) (n : Nat) (config : Config)
    (sink : Sink) :
    ((u.run n).outcome (.start config sink)).Alike ((u'.run n).outcome (.start config sink)) := by
  have hu : Eval.Commutes .bare (Value.relabel .bare) (u.run n) (u.bare.run n) :=
    commutes_run rfl n rfl
  rw [h] at hu
  exact hu.outcomes_alike (commutes_run rfl n rfl) config sink

/-- Scripts that differ in ranges only have alike outcomes. -/
theorem Script.outcomes_alike {s s' : Script} (h : s.bare = s'.bare) (n : Nat) (config : Config)
    (sink : Sink) :
    ((s.run n).outcome (.start config sink)).Alike ((s'.run n).outcome (.start config sink)) := by
  have hs : Eval.Commutes .bare (Value.relabel .bare) (s.run n) (s.bare.run n) :=
    commutes_run rfl n rfl
  rw [h] at hs
  exact hs.outcomes_alike (commutes_run rfl n rfl) config sink

/-- A program that differs in ranges only from one with a `main` function has one too. -/
theorem Program.exists_main {u u' : Program} (h : (u.function? "main").isSome)
    (hbare : u.bare = u'.bare) :
    ∃ f, .func f ∈ u'.decls ∧ f.ident.name = "main" := by
  obtain ⟨f, hf⟩ := Option.isSome_iff_exists.1 h
  have hname : f.ident.name = "main" := by simpa using List.find?_some hf
  obtain ⟨d, hd, hfunc⟩ := List.mem_filterMap.1 (List.mem_of_find?_eq_some hf)
  have hdecls : u.decls.map (Decl.relabel .bare) = u'.decls.map (Decl.relabel .bare) := by
    rw [← Decl.relabelAll_eq_map, ← Decl.relabelAll_eq_map]
    exact congrArg Program.decls hbare
  obtain ⟨d', hd', heq⟩ := List.mem_map.1 (hdecls ▸ List.mem_map_of_mem hd)
  cases d with
  | func f₀ =>
    obtain rfl : f₀ = f := Option.some.inj hfunc
    cases d' with
    | func f' =>
      obtain ⟨_, ident, _⟩ := f₀
      obtain ⟨_, ident', _⟩ := f'
      have hident : ident'.name = ident.name := congrArg (·.ident.name) (Decl.func.inj heq)
      exact ⟨_, hd', hident.trans hname⟩
    | _ => simp [Decl.relabel] at heq
  | _ => simp [Decl.func?] at hfunc

namespace Buffer

variable {b b' : Buffer}

/-- A text whose tokens can be read says what they say. -/
theorem words_of_tokens {ts : List Token} (h : b.tokens = .ok ts) :
    b.words = (ts.map Token.lexeme).map .ok := by
  rw [words, Filter.toList_eq, tokens_eq_ok.1 h]
  simp [Function.comp_def, Item.content]

/-- A text that says lexemes without a fault has tokens that are these. -/
theorem tokens_of_words {ls : List Lexeme} (h : b.words = ls.map .ok) :
    ∃ ts, b.tokens = .ok ts ∧ ts.map Token.lexeme = ls := by
  simp only [tokens_eq_ok]
  rw [words, Filter.toList_eq] at h
  generalize (Filter.ofItems Filter.trivia b.items).remaining = items at h ⊢
  induction items generalizing ls with
  | nil => exact ⟨[], rfl, by simpa using h⟩
  | cons i items ih =>
    cases ls with
    | nil => simp at h
    | cons l ls =>
      obtain ⟨hi, hitems⟩ := List.cons.inj h
      obtain ⟨ts, rfl, rfl⟩ := ih hitems
      cases i with
      | error e => cases hi
      | ok t => exact ⟨t :: ts, rfl, by rw [List.map_cons, Except.ok.inj hi]⟩

theorem words_callMain : (anonymous "return main();").words = Parse.callMainLexemes.map .ok := by
  decide +kernel

/-- Up to ranges, the script has the declarations of the program and then the call. -/
theorem script_of_program {u : Program} (hu : b.program = .ok u)
    (htext : b'.text = b.text ++ "\n" ++ "return main();") :
    ∃ (u₀ : Program) (s s₀ : Script) (ss : List Stmt) (name call whole : Range),
      b'.script = .ok s ∧ u.bare = u₀.bare ∧ s₀.bare = s.bare ∧
        s₀.stmts = ss ++ [.callMain name call whole] ∧ Declares u₀.decls ss := by
  obtain ⟨ts, hts, -⟩ := tokens_of_eval Parse.takes_program hu
  have hwords := words_of_tokens hts
  have hwords' : b'.words = (ts.map Token.lexeme ++ Parse.callMainLexemes).map .ok := by
    have hjoined : b'.words = b.words ++ (anonymous "return main();").words :=
      words_joined hwords htext
    rw [hjoined, hwords, words_callMain, List.map_append]
  obtain ⟨ts', hts', hlexemes⟩ := tokens_of_words hwords'
  obtain ⟨q, -, hread⟩ := ok_of_eval hu
  obtain ⟨u₀, q₀, hu₀, hbare, -⟩ :=
    (Parse.agree_program (Parser.alike_ofLexemes hts)).exists_ok hread
  have hfuel : (Parser.ofLexemes (ts.map Token.lexeme)).fuel + 19 ≤
      (Parser.ofLexemes (ts.map Token.lexeme ++ Parse.callMainLexemes)).fuel := by
    simp only [Parser.fuel_ofLexemes, List.length_append, Parse.callMainLexemes, List.length_cons,
      List.length_nil]
    omega
  obtain ⟨s₀, r₀, hs₀, ss, name, call, whole, hstmts, hdeclares⟩ :=
    Parse.succeeds_script_of_program hu₀ (Parser.begins_ofLexemes Parse.callMainLexemes) hfuel
  have halike := Parser.alike_ofLexemes hts'
  rw [hlexemes] at halike
  obtain ⟨s, r, hs, hbare', -⟩ := (Parse.agree_script halike.symm).exists_ok hs₀
  have hscript : b'.script = .ok s := by
    rw [script, Parser.start_eq_ofBuffer hts']
    simp only [Bind.bind, Except.bind, Parse.eval, hs]
  exact ⟨u₀, s, s₀, ss, name, call, whole, hscript, hbare, hbare', hstmts, hdeclares⟩

/-- A program runs as the script does that calls `main` after it. One of them ends if the other
does, the program with as many steps as the script and the script with three more than the program.
They have the same output and the same value, or the same error up to its place. -/
theorem modes_agree {u : Program} (hu : b.program = .ok u) (hmain : (u.function? "main").isSome)
    (htext : b'.text = b.text ++ "\n" ++ "return main();") (config : Config) (sink : Sink) :
    (∀ n, (b.run .program config sink n).ending ≠ .exhausted →
        (b.run .program config sink n).Alike (b'.run .script config sink (n + 3))) ∧
      ∀ n, (b'.run .script config sink n).ending ≠ .exhausted →
        (b.run .program config sink n).Alike (b'.run .script config sink n) := by
  obtain ⟨u₀, s, s₀, ss, name, call, whole, hs, hbare, hbare', hstmts, hss⟩ :=
    script_of_program hu htext
  obtain ⟨f, hf, hname⟩ := Program.exists_main hmain hbare
  have hprogram : ∀ n,
      (b.run .program config sink n).Alike ((u₀.run n).outcome (.start config sink)) := by
    intro n
    have hrun : b.run .program config sink n = (u.run n).outcome (.start config sink) := by
      simp only [run, action, hu, Except.map]
    rw [hrun]
    exact Program.outcomes_alike hbare n config sink
  have hscript : ∀ n,
      ((s₀.run n).outcome (.start config sink)).Alike (b'.run .script config sink n) := by
    intro n
    have hrun : b'.run .script config sink n = (s.run n).outcome (.start config sink) := by
      simp only [run, action, hs, Except.map]
    rw [hrun]
    exact Script.outcomes_alike hbare' n config sink
  constructor
  · intro n hends
    have hends₀ := mt (hprogram n).exhausted_iff.2 hends
    exact ((hprogram n).trans (Eval.script_of_program hstmts hss hf hname rfl hends₀)).trans
      (hscript (n + 3))
  · intro n hends
    have hends₀ := mt (hscript n).exhausted_iff.1 hends
    exact ((hprogram n).trans (Eval.program_of_script hstmts hss hf hname rfl hends₀)).trans
      (hscript n)

/-- The program ends in a comment and its `main` takes an argument : the call fails
after the same output. -/
theorem modes_agree_arity : ∃ (b b' : Buffer) (u : Program),
    b = anonymous "var n = print(1); func main(a) \x7b return n; \x7d // one" ∧
      b'.text = b.text ++ "\n" ++ "return main();" ∧ b.program = .ok u ∧
      (u.function? "main").isSome ∧
      (b.run .program {} {} 9).output = "1\n" ∧
      (b.run .program {} {} 9).ending.told =
        some (.error (.runtime ⟨.argumentCount "main" 1 0, .unknown⟩,
        "function 'main' takes 1 argument(s) but 0 were given")) ∧
      (b.run .program {} {} 9).Alike (b'.run .script {} {} 12) := by
  obtain ⟨b, hb⟩ : ∃ b, b = anonymous "var n = print(1); func main(a) \x7b return n; \x7d // one" :=
    ⟨_, rfl⟩
  have hread : (b.program.map fun u => (u.function? "main").isSome).toOption = some true := by
    rw [hb]
    decide +kernel
  have houtput : (b.run .program {} {} 9).output = "1\n" := by
    rw [hb]
    decide +kernel
  have htold : (b.run .program {} {} 9).ending.told =
      some (.error (.runtime ⟨.argumentCount "main" 1 0, .unknown⟩,
        "function 'main' takes 1 argument(s) but 0 were given")) := by
    rw [hb]
    decide +kernel
  have hends : (b.run .program {} {} 9).ending ≠ .exhausted := by
    intro hexhausted
    rw [hexhausted] at htold
    cases htold
  cases hu : b.program with
  | error e => simp [hu, Except.map, Except.toOption] at hread
  | ok u =>
    have hmain : (u.function? "main").isSome := by
      simpa [hu, Except.map, Except.toOption] using hread
    exact ⟨b, anonymous (b.text ++ "\n" ++ "return main();"), u, hb, rfl, hu, hmain, houtput, htold,
      (modes_agree hu hmain rfl {} {}).1 9 hends⟩

end Buffer

end Rill
