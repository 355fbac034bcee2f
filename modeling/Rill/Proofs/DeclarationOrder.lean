import Rill.Proofs.Lockstep
import Rill.Run.Outcome

/-!
# The order of declarations

The declarations of a program are bound one after the other before anything is called. Where they
need no evaluation and have different names (`Decl.Plain`), another order gives a global frame with
the same bindings in another order (`Eval.declareAll_plain`, `alike_of_perm`). A frame is only ever
asked for the symbol of a name, so a run does not notice the order of its bindings (`Frame.Alike`) :
it is kept beside the other run by every single step (`Eval.lockstep_alike`). The frames above the
global one are the same in both runs.
-/

namespace Rill

/-! ## Frames up to the order of their bindings -/

/-- Two frames that give the same symbol for every name. -/
def Frame.Alike (f f' : Frame) : Prop := ∀ x, f'.get? x = f.get? x

/-- Two stacks whose global frames are alike, under the same other frames. -/
inductive Stack.Alike : Stack → Stack → Prop
  | mk (inner : List Frame) {f f' : Frame} (h : f.Alike f') : Alike ⟨inner, f⟩ ⟨inner, f'⟩

/-- Two environments that differ in their stacks only, which are alike. -/
inductive Env.Alike (env : Env) : Env → Prop
  | mk {stack : Stack} (h : env.stack.Alike stack) : Env.Alike env { env with stack := stack }

theorem rel_map {α β γ δ : Type} {r : α → β → Prop} {r' : γ → δ → Prop} {f : α → γ} {g : β → δ}
    {o : Option α} {o' : Option β} (h : Option.Rel r o o') (hr : ∀ {a b}, r a b → r' (f a) (g b)) :
    Option.Rel r' (o.map f) (o'.map g) := by
  cases h with
  | none => exact .none
  | some h => exact .some (hr h)

theorem rel_getD {α β : Type} {r : α → β → Prop} {o : Option α} {o' : Option β} {a : α} {b : β}
    (h : Option.Rel r o o') (hr : r a b) : r (o.getD a) (o'.getD b) := by
  cases h with
  | none => exact hr
  | some h => exact h

namespace Frame.Alike

variable {f f' : Frame}

/-- A name can be added to both of two alike frames or to none. -/
theorem add? (h : f.Alike f') (x : String) (symbol : Symbol) :
    Option.Rel Alike (f.add? x symbol) (f'.add? x symbol) := by
  have hcontains : f'.contains x = f.contains x := congrArg Option.isSome (h x)
  by_cases hx : f.contains x = true
  · rw [Frame.add?, if_pos hx, Frame.add?, if_pos (hcontains.trans hx)]
    exact .none
  · have hadd : f.add? x symbol = some _ := if_neg hx
    have hadd' : f'.add? x symbol = some _ := if_neg (hcontains ▸ hx)
    rw [hadd, hadd']
    exact .some fun y => by rw [get?_add? hadd, get?_add? hadd', h]

/-- A name can be set in both of two alike frames or in none. -/
theorem set? (h : f.Alike f') (x : String) (v : Value) :
    Option.Rel Alike (f.set? x v) (f'.set? x v) := by
  have hnone : f'.set? x v = none ↔ f.set? x v = none := by rw [set?_eq_none, set?_eq_none, h]
  cases hset : f.set? x v with
  | none =>
    rw [hnone.2 hset]
    exact .none
  | some g =>
    obtain ⟨g', hset'⟩ :=
      Option.ne_none_iff_exists'.1 fun h' => Option.some_ne_none g (hset.symm.trans (hnone.1 h'))
    rw [hset']
    exact .some fun y => by rw [get?_set? hset, get?_set? hset', h]

end Frame.Alike

namespace Stack.Alike

variable {s s' : Stack}

theorem push (h : s.Alike s') : s.push.Alike s'.push := by
  obtain ⟨inner, h⟩ := h
  exact ⟨_, h⟩

theorem pop (h : s.Alike s') : s.pop.Alike s'.pop := by
  obtain ⟨inner, h⟩ := h
  exact ⟨_, h⟩

/-- Alike stacks give the same symbol for a name. -/
theorem find? (h : s.Alike s') (x : String) : s'.find? x = s.find? x := by
  obtain ⟨inner, h⟩ := h
  unfold Stack.find?
  rw [h]

theorem add? (h : s.Alike s') (x : String) (symbol : Symbol) :
    Option.Rel Alike (s.add? x symbol) (s'.add? x symbol) := by
  obtain ⟨inner, h⟩ := h
  cases inner with
  | nil => exact rel_map (h.add? x symbol) fun h => ⟨[], h⟩
  | cons top rest =>
    simp only [Stack.add?]
    cases top.add? x symbol with
    | none => exact .none
    | some top => exact .some ⟨top :: rest, h⟩

/-- A name can be set in both of two alike stacks or in none. -/
theorem set? (h : s.Alike s') (x : String) (v : Value) :
    Option.Rel Alike (s.set? x v) (s'.set? x v) := by
  obtain ⟨inner, h⟩ := h
  simp only [Stack.set?]
  cases setIn? x v inner with
  | some inner => exact .some ⟨inner, h⟩
  | none => exact rel_map (h.set? x v) fun h => ⟨inner, h⟩

end Stack.Alike

/-! ## Runs on stacks that are alike -/

namespace Eval

/-- No run is cut off. -/
def uncut : Env → Stop → Env → Prop := fun _ _ _ => False

/-- A change of stacks that keeps them alike keeps runs in step. -/
theorem alike_modifyStack {f : Stack → Stack}
    (hf : ∀ {s s' : Stack}, s.Alike s' → (f s).Alike (f s')) :
    Aligned Env.Alike uncut (modifyStack f) := by
  rintro env _ ⟨h⟩
  exact .ok ⟨hf h⟩

theorem alike_add (name : String) (symbol : Symbol) (range : Range) :
    Aligned Env.Alike uncut (add name symbol range) := by
  rintro env _ ⟨h⟩
  have hadd := h.add? name symbol
  unfold add
  generalize env.stack.add? name symbol = added at hadd
  generalize Stack.add? _ name symbol = added' at hadd
  cases hadd with
  | none => exact .error ⟨h⟩
  | some h => exact .ok ⟨h⟩

theorem alike_find? (name : String) : Aligned Env.Alike uncut (find? name) := by
  rintro env _ ⟨h⟩
  rename_i stack
  have hfind : find? name { env with stack := stack } =
      .ok (env.stack.find? name) { env with stack := stack } :=
    h.find? name ▸ rfl
  rw [hfind]
  exact .ok ⟨h⟩

theorem alike_print (args : List Value) : Aligned Env.Alike uncut (print args) := by
  rintro env _ ⟨h⟩
  unfold print write
  generalize env.sink.writeAll _ = written
  obtain ⟨refused, sink⟩ := written
  cases refused with
  | none => exact .ok ⟨h⟩
  | some message => exact .error ⟨h⟩

/-- Runs from alike environments stay in step. -/
theorem lockstep_alike : Lockstep Env.Alike uncut where
  push := alike_modifyStack fun h => h.push
  pop := alike_modifyStack fun h => h.pop
  add := alike_add
  find? := alike_find?
  set name value := alike_modifyStack fun h => rel_getD (h.set? name value) h
  print := alike_print
  callDepth := by
    rintro env _ ⟨-⟩
    rfl
  maxCallDepth := by
    rintro env _ ⟨-⟩
    rfl
  atDepth := by
    rintro env _ depth ⟨h⟩
    exact ⟨h⟩
  cut _ _ h := h.elim

/-- Runs that stay in step have the same outcome. -/
theorem outcome_eq_of_beside {act act' : Eval Value} {env env' : Env}
    (h : Beside Env.Alike uncut (act env) (act' env')) : act.outcome env = act'.outcome env' := by
  unfold outcome
  generalize act env = r at h
  generalize act' env' = r' at h
  cases h with
  | ok h =>
    cases h
    rfl
  | error h =>
    rename_i why _ _
    cases h
    cases why <;> rfl
  | cut h => exact h.elim

end Eval

/-! ## Declarations -/

/-- A declaration that can be bound without evaluating anything but a literal. -/
def Decl.Plain : Decl → Prop
  | .var v => v.init = none ∨ ∃ l range, v.init = some (.literal l range)
  | .func _ => True
  | .group _ => False

/-- What a variable without an initializer or with a literal one starts with. -/
def Variable.start (v : Variable) : Value :=
  match v.init with
  | some (.literal l _) => .ofLiteral l
  | _ => .null

/-- The binding that a plain declaration makes. -/
def Decl.binding : Decl → String × Symbol
  | .var v => (v.ident.name, ⟨if v.constant then .const else .var, v.start⟩)
  | .func f => (f.ident.name, ⟨.func, .function (.user f)⟩)
  | .group g => (g.ident.name, ⟨.const, .null⟩)

/-- A plain declaration binds its name. -/
theorem Decl.binding_fst (d : Decl) : d.binding.1 = d.ident.name := by
  cases d <;> rfl

/-- Only the order of the bindings changes where declarations change places. -/
theorem alike_of_perm {entries entries' : List (String × Symbol)} (hperm : entries.Perm entries')
    (hnodup : (entries.map Prod.fst).Nodup) : (Frame.mk entries).Alike ⟨entries'⟩ := by
  intro x
  unfold Frame.get?
  induction hperm with
  | nil => rfl
  | cons e _ ih =>
    obtain ⟨y, symbol⟩ := e
    have hrest := ih (List.nodup_cons.1 hnodup).2
    simp only [List.lookup_cons, hrest]
  | swap e e' rest =>
    obtain ⟨y, symbol⟩ := e
    obtain ⟨z, symbol'⟩ := e'
    have hne : z ≠ y := by
      rintro rfl
      exact (List.nodup_cons.1 hnodup).1 (List.mem_cons_self ..)
    by_cases hx : x = y
    · obtain rfl := hx
      rw [List.lookup_cons_self, Frame.lookup_cons_of_ne hne.symm, List.lookup_cons_self]
    · rw [Frame.lookup_cons_of_ne hx]
      simp only [List.lookup_cons, beq_false_of_ne hx]
  | trans hfirst _ ihfirst ihsecond =>
    have hnodup' := ((hfirst.map Prod.fst).nodup_iff).1 hnodup
    exact (ihsecond hnodup').trans (ihfirst hnodup)

/-- A new entry adds no other name than its own. -/
theorem Frame.contains_concat_of_ne {f : Frame} {e : String × Symbol} {x : String} (h : x ≠ e.1) :
    (Frame.mk (f.entries ++ [e])).contains x = f.contains x := by
  obtain ⟨y, symbol⟩ := e
  simp [contains, get?, List.lookup_append, lookup_cons_of_ne h]

/-- An environment with a global frame and no other. -/
def Env.global (env : Env) (f : Frame) : Env := { env with stack := ⟨[], f⟩ }

namespace Eval

/-- A plain declaration is bound, if there are steps to do it. -/
theorem declare_plain {d : Decl} (h : d.Plain) (n : Nat) :
    declare n true d = exhausted ∨
    ∃ range, declare n true d = add d.binding.1 d.binding.2 range := by
  cases d with
  | group g => exact h.elim
  | func f =>
    cases n with
    | zero => exact .inl rfl
    | succ n => exact .inr ⟨f.ident.range, rfl⟩
  | var v =>
    obtain ⟨id, ident, type, init, constant, scope, range⟩ := v
    rcases h with h | ⟨l, lrange, h⟩
    · obtain rfl : init = none := h
      rcases n with _ | _ | n
      · exact .inl rfl
      · exact .inl rfl
      · exact .inr ⟨range, rfl⟩
    · obtain rfl : init = some (.literal l lrange) := h
      rcases n with _ | _ | _ | n
      · exact .inl rfl
      · exact .inl rfl
      · exact .inl rfl
      · exact .inr ⟨range, rfl⟩

/-- A new name is added at the end of the global frame. -/
theorem add_global {env : Env} {f : Frame} {e : String × Symbol} (range : Range)
    (h : f.contains e.1 = false) :
    add e.1 e.2 range (env.global f) = .ok () (env.global ⟨f.entries ++ [e]⟩) := by
  have hadd : (env.global f).stack.add? e.1 e.2 = some ⟨[], ⟨f.entries ++ [e]⟩⟩ := by
    simp [Env.global, Stack.add?, Frame.add?, h]
  unfold add
  rw [hadd]
  rfl

/-- Plain declarations with names that are new and different are bound in their order, if there are
steps for all of them. -/
theorem declareAll_plain {n : Nat} {ds : List Decl} (hplain : ∀ d ∈ ds, d.Plain)
    (hnodup : (ds.map (·.ident.name)).Nodup) (env : Env) (f : Frame)
    (hnew : ∀ d ∈ ds, f.contains d.ident.name = false) :
    ((∀ d ∈ ds, declare n true d ≠ exhausted) ∧
      declareAll n ds (env.global f) = .ok () (env.global ⟨f.entries ++ ds.map Decl.binding⟩)) ∨
    ((∃ d ∈ ds, declare n true d = exhausted) ∧
      ∃ f', declareAll n ds (env.global f) = .error .exhausted (env.global f')) := by
  -- The frame grows with each declaration, so the induction is for all frames that lack
  -- the names still to come.
  induction ds generalizing f with
  | nil =>
    rw [List.map_nil, List.append_nil]
    exact .inl ⟨by simp, rfl⟩
  | cons d rest ih =>
    have hfree : f.contains d.binding.1 = false := d.binding_fst ▸ hnew d (List.mem_cons_self ..)
    rcases declare_plain (hplain d (List.mem_cons_self ..)) n with hout | ⟨range, hbind⟩
    · exact .inr ⟨⟨d, List.mem_cons_self .., hout⟩, f, by unfold declareAll; rw [hout]; rfl⟩
    · have hd : declare n true d (env.global f) =
          .ok () (env.global ⟨f.entries ++ [d.binding]⟩) := by
        rw [hbind]
        exact add_global range hfree
      have hne : declare n true d ≠ exhausted := fun h => by
        rw [h] at hd
        cases hd
      have hnew' : ∀ d' ∈ rest,
          (Frame.mk (f.entries ++ [d.binding])).contains d'.ident.name = false := by
        intro d' hd'
        have hother : d'.ident.name ≠ d.binding.1 := by
          rw [d.binding_fst]
          intro heq
          exact (List.nodup_cons.1 hnodup).1 (List.mem_map.2 ⟨d', hd', heq⟩)
        rw [Frame.contains_concat_of_ne hother]
        exact hnew d' (List.mem_cons_of_mem d hd')
      have hrun : declareAll n (d :: rest) (env.global f) =
          declareAll n rest (env.global ⟨f.entries ++ [d.binding]⟩) := bind_of_ok hd
      rw [hrun]
      rcases ih (fun d' h => hplain d' (List.mem_cons_of_mem d h)) (List.nodup_cons.1 hnodup).2 _
          hnew' with
        ⟨hall, hrest⟩ | ⟨⟨d', hd', hout⟩, hrest⟩
      · refine .inl ⟨?_, ?_⟩
        · intro d' hd'
          rcases List.mem_cons.1 hd' with rfl | hd'
          · exact hne
          · exact hall d' hd'
        · rw [hrest, List.map_cons, List.append_assoc]
          rfl
      · exact .inr ⟨⟨d', List.mem_cons_of_mem d hd', hout⟩, hrest⟩

/-- In another order the declarations give a frame that is alike, or the steps do not suffice
in that order either. -/
theorem declareAll_perm {ds ds' : List Decl} (hperm : ds.Perm ds') (hplain : ∀ d ∈ ds, d.Plain)
    (hnodup : (ds.map (·.ident.name)).Nodup) (env : Env) (n : Nat) :
    (∃ f f' : Frame, f.Alike f' ∧ declareAll n ds (env.global {}) = .ok () (env.global f) ∧
      declareAll n ds' (env.global {}) = .ok () (env.global f')) ∨
    ∃ f f', declareAll n ds (env.global {}) = .error .exhausted (env.global f) ∧
      declareAll n ds' (env.global {}) = .error .exhausted (env.global f') := by
  have hplain' : ∀ d ∈ ds', d.Plain := fun d hd => hplain d (hperm.mem_iff.2 hd)
  have hnodup' : (ds'.map (·.ident.name)).Nodup := ((hperm.map _).nodup_iff).1 hnodup
  have hkeys : ((ds.map Decl.binding).map Prod.fst).Nodup := by
    rw [List.map_map]
    simpa only [Function.comp_def, Decl.binding_fst] using hnodup
  have hfirst := declareAll_plain (n := n) hplain hnodup env {} fun _ _ => rfl
  have hsecond := declareAll_plain (n := n) hplain' hnodup' env {} fun _ _ => rfl
  rcases hfirst with ⟨hall, hrun⟩ | ⟨⟨d, hd, hout⟩, f, hrun⟩
  · rcases hsecond with ⟨-, hrun'⟩ | ⟨⟨d, hd, hout⟩, -⟩
    · exact .inl ⟨_, _, alike_of_perm (hperm.map Decl.binding) hkeys, hrun, hrun'⟩
    · exact absurd hout (hall d (hperm.mem_iff.2 hd))
  · rcases hsecond with ⟨hall, -⟩ | ⟨-, f', hrun'⟩
    · exact absurd hout (hall d (hperm.mem_iff.1 hd))
    · exact .inr ⟨f, f', hrun, hrun'⟩

/-! ## Programs -/

/-- A run that has used up its steps has an outcome that says so. -/
theorem outcome_of_exhausted {act : Eval Value} {env env' : Env}
    (h : act env = .error .exhausted env') :
    act.outcome env = ⟨.exhausted, env'.sink.text⟩ := by
  unfold outcome
  rw [h]

/-- After the declarations are bound, programs do the same. -/
theorem alike_main (n : Nat) :
    Aligned Env.Alike uncut (mainFunction >>= fun main => call n main [] main.range) := by
  intro env env' h
  exact (composed_mainFunction.bind fun main =>
    composed_perform n (.call main [] main.range)).aligned lockstep_alike h

/-- Programs whose declarations need no evaluation and have different names have the same outcome in
every order of their declarations. -/
theorem outcome_eq_of_perm {p p' : Program} (hperm : p.decls.Perm p'.decls)
    (hplain : ∀ d ∈ p.decls, d.Plain) (hnodup : (p.decls.map (·.ident.name)).Nodup) {env : Env}
    (hfresh : env.stack = {}) (n : Nat) :
    (p.run n).outcome env = (p'.run n).outcome env := by
  have hglobal : env = env.global {} := by
    unfold Env.global
    rw [← hfresh]
  rw [hglobal]
  rcases declareAll_perm hperm hplain hnodup env n with
      ⟨f, f', halike, hrun, hrun'⟩ | ⟨f, f', hrun, hrun'⟩
  · have hbeside : Beside Env.Alike uncut (p.run n (env.global {})) (p'.run n (env.global {})) := by
      unfold Program.run
      rw [bind_of_ok hrun, bind_of_ok hrun']
      exact alike_main n ⟨⟨[], halike⟩⟩
    exact outcome_eq_of_beside hbeside
  · have hout : p.run n (env.global {}) = .error .exhausted (env.global f) := bind_of_error hrun
    have hout' : p'.run n (env.global {}) = .error .exhausted (env.global f') := bind_of_error hrun'
    rw [outcome_of_exhausted hout, outcome_of_exhausted hout']
    rfl

/-- A function that returns a constant, the constant and a function that calls the first one,
in two orders. -/
theorem outcome_eq_of_perm_constant :
    let name (text : String) : Expr := .name ⟨text, .unknown⟩
    let func (text : String) (e : Expr) : Decl :=
      .func ⟨⟨0⟩, ⟨text, .unknown⟩, none, [], ⟨[.return (some e) .unknown], ⟨1⟩, .unknown⟩, ⟨0⟩,
        ⟨1⟩, .unknown⟩
    let main := func "main" (name "x")
    let f := func "f" (.call (name "main") [] .unknown)
    let x : Decl :=
      .var ⟨⟨0⟩, ⟨"x", .unknown⟩, none, some (.literal (.int 7) .unknown), true, ⟨0⟩, .unknown⟩
    let program (ds : List Decl) : Program := ⟨ds, .unknown, .initial, .empty⟩
    ((program [main, f, x]).run 20).outcome {} = ((program [x, main, f]).run 20).outcome {} ∧
      ((program [main, f, x]).run 20).outcome {} = ⟨.value (.int 7), ""⟩ := by
  intro name func main f x program
  have hperm : (program ([main, f] ++ [x])).decls.Perm (program ([x] ++ [main, f])).decls :=
    List.perm_append_comm
  have hplain : ∀ d ∈ [main, f, x], d.Plain := by
    intro d hd
    rcases List.mem_cons.1 hd with rfl | hd
    · trivial
    rcases List.mem_cons.1 hd with rfl | hd
    · trivial
    obtain rfl := List.mem_singleton.1 hd
    exact .inr ⟨.int 7, .unknown, rfl⟩
  exact ⟨outcome_eq_of_perm hperm hplain (by decide) rfl 20, rfl⟩

end Eval

end Rill
