import Rill.Proofs.Conduct
import Rill.Proofs.ResultSlot
import Rill.Proofs.Roles

/-!
# A frame that is not noticed

Names are looked up through the whole stack, so a frame that lies between others can change what an
evaluation does only if it binds a name that the evaluation uses. `Env.Padded extra k` relates two
environments that differ in one frame, which the second has below its `k` innermost ones. If the
frame binds no name of the tree that is evaluated and none of the functions that can be called
(`Frame.Apart`), then evaluations in the two give the same and leave environments that again differ
in this frame only (`Eval.overlooks_perform`). That nothing else is evaluated is a contract
(`Contract.apart`). The word `return` counts as a name, since the statement assigns to the slot for
the result, which is found by this name.

A name is bound in the innermost frame, and so a task that declares something has to have a frame
over the one that is put in. A block has one of its own, and an expression declares nothing.
-/

namespace Rill

/-! ## Names of a tree -/

/-- The name or the word that the token is. -/
def Role.text? : Role → Option String
  | .name ident => some ident.name
  | .word text => some text
  | _ => none

/-- No name or word among some roles is bound in a frame. -/
def Frame.Apart (frame : Frame) (rs : List Role) : Prop :=
  ∀ r ∈ rs, ∀ x ∈ r.text?, frame.get? x = none

/-- No name or word in a function is bound in a frame. -/
def Frame.ApartFunc (frame : Frame) (f : Func) : Prop := frame.Apart f.roles

namespace Frame

variable {frame : Frame} {rs rs' : List Role}

/-- A frame is apart from roles in sequence if it is from both. -/
@[simp]
theorem apart_append : frame.Apart (rs ++ rs') ↔ frame.Apart rs ∧ frame.Apart rs' :=
  List.forall_mem_append

@[simp]
theorem apart_word {text : String} :
    frame.Apart (.word text :: rs) ↔ frame.get? text = none ∧ frame.Apart rs := by
  simp [Apart, Role.text?]

/-- A frame that is apart from a name does not bind it. -/
@[simp]
theorem apart_name {i : Ident} :
    frame.Apart (.name i :: rs) ↔ frame.get? i.name = none ∧ frame.Apart rs := by
  simp [Apart, Role.text?]

/-- A frame without names is apart from everything. -/
theorem apart_empty (rs : List Role) : Apart {} rs := fun _ _ _ _ => rfl

end Frame

/-- The roles of a node are among those of the node around it. -/
theorem Node.roles_subset {n c : Node} (hc : .node c ∈ n.parts) : c.roles ⊆ n.roles := by
  cases hname : n.name? with
  | none =>
    rw [roles_eq_parts hname]
    exact fun r hr => List.mem_flatMap.2 ⟨_, hc, hr⟩
  | some i =>
    cases n with
    | ident i => simp [parts] at hc
    | expr e =>
      cases e with
      | name i => simp [parts, Part.ofExpr] at hc
      | _ => cases hname
    | _ => cases hname

/-- A frame that is apart from a node is apart from all nodes inside it. -/
theorem Node.all_apart {extra : Frame} {n : Node} (h : extra.Apart n.roles) :
    n.All fun m => extra.Apart m.roles :=
  .of_parts (fun hn hc r hr => hn r (Node.roles_subset hc hr)) h

/-- Trees and functions that use no name which is bound in a frame. -/
def Contract.apart (extra : Frame) : Contract where
  node n := extra.Apart n.roles
  func := extra.ApartFunc
  jump _ := True
  main := False
  nodes f hf := Node.all_apart (by rwa [Node.roles, Decl.roles])
  jumps _ _ _ _ := trivial

/-! ## Environments that differ in one frame -/

namespace Frame

/-- The second list is the first with a frame put in after `k` others. -/
inductive Inserted (extra : Frame) : Nat → List Frame → List Frame → Prop
  | here (rest : List Frame) : Inserted extra 0 rest (extra :: rest)
  | under {k : Nat} {l l' : List Frame} (f : Frame) (h : Inserted extra k l l') :
      Inserted extra (k + 1) (f :: l) (f :: l')

variable {extra : Frame} {k : Nat} {l l' : List Frame} {x : String}

/-- A name that the frame does not bind is found where it was before. -/
theorem Inserted.findIn? (h : Inserted extra k l l') (hx : extra.get? x = none) :
    Stack.findIn? x l' = Stack.findIn? x l := by
  induction h with
  | here rest => exact congrArg (· <|> Stack.findIn? x rest) hx
  | under f _ ih => rw [Stack.findIn?, Stack.findIn?, ih]

/-- A name that the frame does not bind is set where it was before. -/
theorem Inserted.setIn? (h : Inserted extra k l l') (hx : extra.get? x = none) (v : Value) :
    Option.Rel (Inserted extra k) (Stack.setIn? x v l) (Stack.setIn? x v l') := by
  induction h with
  | here rest =>
    rw [Stack.setIn?, set?_eq_none.2 hx]
    cases Stack.setIn? x v rest with
    | none => exact .none
    | some rest' => exact .some (.here rest')
  | under f hl ih =>
    simp only [Stack.setIn?]
    cases f.set? x v with
    | some f' => exact .some (.under f' hl)
    | none =>
      generalize Stack.setIn? x v _ = r at ih
      generalize Stack.setIn? x v _ = r' at ih
      cases ih with
      | some h => exact .some (.under f h)
      | none => exact .none

end Frame

/-- The innermost frame of a stack binds a name. -/
def Stack.Binds (s : Stack) (x : String) : Prop :=
  ∃ top rest, s.names = top :: rest ∧ top.any (·.1 == x) = true

/-- The second stack is the first with a frame put in below the `k` innermost ones. -/
structure Stack.Padded (extra : Frame) (k : Nat) (s s' : Stack) : Prop where
  inner : Frame.Inserted extra k s.inner s'.inner
  bottom : s'.bottom = s.bottom

namespace Stack.Padded

variable {extra : Frame} {k : Nat} {s s' : Stack} {x : String}

theorem push (h : s.Padded extra k s') : s.push.Padded extra (k + 1) s'.push :=
  ⟨.under {} h.inner, h.bottom⟩

/-- As long as there are frames over the one that is put in, one of them is popped. -/
theorem pop (h : s.Padded extra (k + 1) s') : s.pop.Padded extra k s'.pop := by
  obtain ⟨inner, bottom⟩ := s
  obtain ⟨inner', bottom'⟩ := s'
  obtain ⟨hinner, hbottom⟩ := h
  cases hinner with
  | under f hinner => exact ⟨hinner, hbottom⟩

/-- Without the frame, if it is the innermost one. -/
theorem pop_eq (h : s.Padded extra 0 s') : s'.pop = s := by
  obtain ⟨inner, bottom⟩ := s
  obtain ⟨inner', bottom'⟩ := s'
  obtain ⟨hinner, hbottom⟩ := h
  cases hinner
  exact congrArg (Stack.mk inner) hbottom

/-- A name that the frame does not bind has the symbol that it had before. -/
theorem find? (h : s.Padded extra k s') (hx : extra.get? x = none) : s'.find? x = s.find? x := by
  rw [Stack.find?, Stack.find?, h.inner.findIn? hx, h.bottom]

/-- A name that the frame binds, if it is the innermost one. -/
theorem find?_of_extra (h : s.Padded extra 0 s') {symbol : Symbol}
    (hx : extra.get? x = some symbol) :
    s'.find? x = some symbol := by
  obtain ⟨inner', bottom'⟩ := s'
  obtain ⟨hinner, -⟩ := h
  cases hinner
  rw [Stack.find?, Stack.findIn?, hx]
  rfl

/-- A name that is bound in the innermost frame, if both stacks have it. -/
theorem find?_of_binds (h : s.Padded extra (k + 1) s') (hx : s.Binds x) :
    s'.find? x = s.find? x := by
  obtain ⟨inner, bottom⟩ := s
  obtain ⟨inner', bottom'⟩ := s'
  obtain ⟨hinner, -⟩ := h
  obtain ⟨top, rest, hnames, hx⟩ := hx
  cases hinner with
  | under f hinner =>
    obtain ⟨rfl, -⟩ := List.cons.inj hnames
    obtain ⟨symbol, hsymbol⟩ := Option.isSome_iff_exists.1 (f.isSome_get?.trans hx)
    simp [Stack.find?, Stack.findIn?, hsymbol]

/-- A name that the frame does not bind is set in both stacks or in none. -/
theorem set (h : s.Padded extra k s') (hx : extra.get? x = none) (v : Value) :
    ((s.set? x v).getD s).Padded extra k ((s'.set? x v).getD s') := by
  simp only [set?, h.bottom]
  have hset := h.inner.setIn? hx v
  generalize setIn? x v s.inner = r at hset
  generalize setIn? x v s'.inner = r' at hset
  cases hset with
  | some hinner => exact ⟨hinner, rfl⟩
  | none =>
    cases s.bottom.set? x v with
    | none => exact h
    | some bottom => exact ⟨h.inner, rfl⟩

/-- A name is bound in a frame that both stacks have. -/
theorem add? (h : s.Padded extra (k + 1) s') (symbol : Symbol) :
    Option.Rel (Stack.Padded extra (k + 1)) (s.add? x symbol) (s'.add? x symbol) := by
  obtain ⟨inner, bottom⟩ := s
  obtain ⟨inner', bottom'⟩ := s'
  obtain ⟨hinner, hbottom⟩ := h
  cases hinner with
  | under f hinner =>
    simp only [Stack.add?]
    cases f.add? x symbol with
    | none => exact .none
    | some f' => exact .some ⟨.under f' hinner, hbottom⟩

end Stack.Padded

theorem Value.Funcs.imp {F G : Func → Prop} {v : Value} (hv : v.Funcs F) (h : ∀ f, F f → G f) :
    v.Funcs G := by
  cases v with
  | function c =>
    cases c with
    | print => trivial
    | user f => exact h f hv
  | _ => trivial

/-- The second environment is the first with a frame put in below the `k` innermost ones. No
function that the first one holds uses a name that is bound in the frame. -/
structure Env.Padded (extra : Frame) (k : Nat) (env env' : Env) : Prop where
  stack : env.stack.Padded extra k env'.stack
  sink : env'.sink = env.sink
  callDepth : env'.callDepth = env.callDepth
  maxCallDepth : env'.maxCallDepth = env.maxCallDepth
  cutting : env'.cutting = env.cutting
  funcs : env.Funcs extra.ApartFunc

namespace Env.Padded

variable {extra : Frame} {k : Nat} {env env' : Env}

theorem push (h : env.Padded extra k env') : env.opened.Padded extra (k + 1) env'.opened :=
  { h with stack := h.stack.push, funcs := h.funcs.push }

theorem pop (h : env.Padded extra (k + 1) env') : env.closed.Padded extra k env'.closed :=
  { h with stack := h.stack.pop, funcs := h.funcs.pop }

/-- With the frame that is put in popped, the environments are the same. -/
theorem closed_eq (h : env.Padded extra 0 env') : env'.closed = env := by
  obtain ⟨stack, sink, callDepth, maxCallDepth, cutting⟩ := env
  obtain ⟨stack', sink', callDepth', maxCallDepth', cutting'⟩ := env'
  obtain ⟨hstack, rfl, rfl, rfl, rfl, -⟩ := h
  rw [Env.closed, hstack.pop_eq]

end Env.Padded

/-- An open frame is an empty one put in. -/
theorem Env.padded_opened (env : Env) : env.Padded {} 0 env.opened where
  stack := ⟨.here env.stack.inner, rfl⟩
  sink := rfl
  callDepth := rfl
  maxCallDepth := rfl
  cutting := rfl
  funcs := env.funcs_of_forall fun f => Frame.apart_empty f.roles

namespace Eval

variable {α β : Type} {extra : Frame} {k k' k'' : Nat} {post : α → Prop}

/-! ## Rules -/

/-- What two runs give : the same, in environments that differ in one frame; or they stop alike,
having written the same. -/
inductive Overlooked (extra : Frame) (k : Nat) (post : α → Prop) :
    EStateM.Result Stop Env α → EStateM.Result Stop Env α → Prop
  | ok {a : α} {env env' : Env} (ha : post a) (h : env.Padded extra k env') :
      Overlooked extra k post (.ok a env) (.ok a env')
  | error {why : Stop} {env env' : Env} (h : env'.sink = env.sink) :
      Overlooked extra k post (.error why env) (.error why env')

/-- Runs that do not notice the frame may be followed by others, from the environments they
leave. -/
theorem Overlooked.bind {act : Eval α} {next : α → Eval β} {post' : β → Prop} {env env' : Env}
    (h : Overlooked extra k post (act env) (act env'))
    (hnext : ∀ a, post a → ∀ last last', act env = .ok a last → last.Padded extra k last' →
      Overlooked extra k' post' (next a last) (next a last')) :
    Overlooked extra k' post' ((act >>= next) env) ((act >>= next) env') := by
  generalize hrun : act env = r at h
  generalize hrun' : act env' = r' at h
  cases h with
  | ok ha hlast =>
    rw [bind_of_ok hrun, bind_of_ok hrun']
    exact hnext _ ha _ _ hrun hlast
  | error hsink =>
    rw [bind_of_error hrun, bind_of_error hrun']
    exact .error hsink

/-- A step that does not notice the frame : there are `k` frames over it before the step and `k'`
after it. -/
def Overlooks (extra : Frame) (k k' : Nat) (post : α → Prop) (act : Eval α) : Prop :=
  ∀ env env', env.Padded extra k env' → Overlooked extra k' post (act env) (act env')

namespace Overlooks

theorem pure {a : α} (ha : post a) : Overlooks extra k k post (pure a) := fun _ _ h => .ok ha h

theorem fail (fault : RuntimeFault) (range : Range) :
    Overlooks extra k k' post (fail fault range) :=
  fun _ _ h => .error h.sink

/-- Steps that do not notice the frame may follow each other. -/
theorem bind {act : Eval α} {next : α → Eval β} {post' : β → Prop}
    (hact : Overlooks extra k k' post act) (hnext : ∀ a, post a →
      Overlooks extra k' k'' post' (next a)) : Overlooks extra k k'' post' (act >>= next) :=
  fun env env' henv => (hact env env' henv).bind fun a ha _ _ _ hlast => hnext a ha _ _ hlast

/-- What is known of the result may be weakened. -/
theorem imp {act : Eval α} {post' : α → Prop} (hact : Overlooks extra k k' post act)
    (hpost : ∀ a, post a → post' a) : Overlooks extra k k' post' act := by
  rw [← bind_pure act]
  exact hact.bind fun a ha => .pure (hpost a ha)

end Overlooks

/-! ## Single steps -/

theorem overlooks_push : Overlooks extra k (k + 1) (fun _ => True) push :=
  fun _ _ h => .ok trivial h.push

theorem overlooks_pop : Overlooks extra (k + 1) k (fun _ => True) pop :=
  fun _ _ h => .ok trivial h.pop

theorem overlooks_close {a : α} (ha : post a) : Overlooks extra (k + 1) k post (do pop; return a) :=
  overlooks_pop.bind fun _ _ => .pure ha

/-- A name that the frame does not bind is found alike. -/
theorem overlooks_find? {name : String} (hname : extra.get? name = none) :
    Overlooks extra k k (fun found => ∀ symbol ∈ found, symbol.value.Funcs extra.ApartFunc)
      (find? name) := by
  intro env env' h
  have hfind : find? name env' = .ok (env.stack.find? name) env' :=
    congrArg (EStateM.Result.ok · env') (h.stack.find? hname)
  rw [hfind]
  exact .ok (fun _ hsymbol => h.funcs.find? hsymbol) h

/-- A name that the frame does not bind is set alike. -/
theorem overlooks_set {name : String} (hname : extra.get? name = none) {v : Value}
    (hv : v.Funcs extra.ApartFunc) :
    Overlooks extra k k (fun _ => True) (set name v) := fun _ _ h =>
  .ok trivial { h with stack := h.stack.set hname v, funcs := h.funcs.set hv name }

theorem overlooks_assign {name : String} (hname : extra.get? name = none) {v : Value}
    (hv : v.Funcs extra.ApartFunc) {a : α} (ha : post a) :
    Overlooks extra k k post (do set name v; return a) :=
  (overlooks_set hname hv).bind fun _ _ => .pure ha

/-- A name is added to the innermost frame, which is not the one that is put in. -/
theorem overlooks_add (name : String) {symbol : Symbol}
    (hsymbol : symbol.value.Funcs extra.ApartFunc) (range : Range) :
    Overlooks extra (k + 1) (k + 1) (fun _ => True) (add name symbol range) := by
  intro env env' h
  unfold add
  have hadd := h.stack.add? (x := name) symbol
  generalize hstack : env.stack.add? name symbol = stack at hadd
  generalize hstack' : env'.stack.add? name symbol = stack' at hadd
  cases hadd with
  | some hstacks =>
    exact .ok trivial { h with stack := hstacks, funcs := h.funcs.add hsymbol hstack }
  | none => exact .error h.sink

/-- Output does not depend on frames. -/
theorem overlooks_print (args : List Value) : Overlooks extra k k (fun _ => True) (print args) := by
  intro env env' h
  unfold print write
  rw [h.sink, h.cutting]
  generalize env.sink.writeAll _ = written
  obtain ⟨refused, sink⟩ := written
  cases refused with
  | none => exact .ok trivial { h with sink := rfl, cutting := rfl }
  | some message => exact .error rfl

/-- Calls are counted alike. -/
theorem overlooks_calling (range : Range) {act : Eval α} (hact : Overlooks extra k k' post act) :
    Overlooks extra k k' post (calling range act) := by
  intro env env' h
  by_cases hlimit : env.maxCallDepth ≤ env.callDepth
  · have hlimit' : env'.maxCallDepth ≤ env'.callDepth := by rwa [h.maxCallDepth, h.callDepth]
    rw [calling_of_limit range hlimit, calling_of_limit range hlimit', h.maxCallDepth]
    exact .error h.sink
  · have hlimit' : ¬env'.maxCallDepth ≤ env'.callDepth := by rwa [h.maxCallDepth, h.callDepth]
    have hdeeper : env.deeper.Padded extra k env'.deeper :=
      { h with callDepth := congrArg (· + 1) h.callDepth, funcs := h.funcs }
    have hboth := hact _ _ hdeeper
    generalize hrun : act env.deeper = r at hboth
    generalize hrun' : act env'.deeper = r' at hboth
    cases hboth with
    | ok ha hlast =>
      rw [calling_of_ok range hlimit hrun, calling_of_ok range hlimit' hrun']
      have hdepth := congrArg (· - 1) hlast.callDepth
      exact .ok ha { hlast with callDepth := hdepth, funcs := hlast.funcs }
    | error hlast =>
      rw [calling_of_error range hlimit hrun, calling_of_error range hlimit' hrun']
      exact .error hlast

theorem overlooks_lookup {ident : Ident} (hident : extra.get? ident.name = none) :
    Overlooks extra k k (Value.Funcs extra.ApartFunc) (lookup ident) := by
  refine (overlooks_find? hident).bind fun found hfound => ?_
  cases found with
  | some symbol => exact .pure (hfound symbol rfl)
  | none =>
    dsimp only
    split
    · exact .pure trivial
    · exact .fail _ _

/-- The name that is assigned to is one of the expression. -/
theorem overlooks_target {e : Expr} (he : extra.Apart e.roles) :
    Overlooks extra k k (fun r => extra.get? r.1 = none ∧ r.2.Funcs extra.ApartFunc)
      (target e) := by
  unfold target
  cases hident : e.ident? with
  | none => exact .fail _ _
  | some ident =>
    have hname : extra.get? ident.name = none := by
      cases e with
      | name i =>
        obtain rfl : i = ident := by simpa [Expr.ident?] using hident
        exact (Frame.apart_name.1 he).1
      | _ => simp [Expr.ident?] at hident
    refine (overlooks_find? hname).bind fun found hfound => ?_
    cases found with
    | none => exact .fail _ _
    | some symbol =>
      obtain ⟨kind, value⟩ := symbol
      cases kind with
      | var => exact .pure ⟨hname, hfound _ rfl⟩
      | const | func => exact .fail _ _

/-- Arguments are bound in the frame of the call, which lies over the one that is put in. -/
theorem overlooks_bindArgs (params : List Variable) {args : List Value}
    (hargs : ∀ v ∈ args, v.Funcs extra.ApartFunc) :
    Overlooks extra (k + 1) (k + 1) (fun _ => True) (bindArgs params args) := by
  induction params generalizing args with
  | nil => exact .pure trivial
  | cons param params ih =>
    cases args with
    | nil => exact .pure trivial
    | cons arg args =>
      rw [List.forall_mem_cons] at hargs
      exact (overlooks_add _ hargs.1 _).bind fun _ _ => ih hargs.2

/-- The body of a call ends with the slot for its result in the innermost frame. -/
theorem binds_of_enter {n : Nat} {f : Func} {args : List Value} {ss : List Stmt}
    {env start last : Env} {flow : Flow} (henter : enter f args env = .ok () start)
    (hran : stmts n ss start = .ok flow last) :
    last.stack.Binds resultName := by
  obtain ⟨⟨params, hstart⟩, -⟩ := results_of_enter henter
  obtain ⟨top, rest, added, htop, hlast, -⟩ :=
    ((leaves_perform n (.stmts ss)).grown hran).stack.names
  obtain ⟨rfl, rfl⟩ := List.cons.inj (hstart.symm.trans htop)
  exact ⟨_, _, hlast, by simp⟩

/-- The result of a call is found in its own frame, which binds the slot. -/
theorem overlooked_result {env env' : Env} (h : env.Padded extra (k + 1) env')
    (hslot : env.stack.Binds resultName) :
    Overlooked extra (k + 1) (Value.Funcs extra.ApartFunc) (result env) (result env') := by
  have hfind : find? resultName env' = .ok (env.stack.find? resultName) env' :=
    congrArg (EStateM.Result.ok · env') (h.stack.find?_of_binds hslot)
  have hread : find? resultName env = .ok (env.stack.find? resultName) env := rfl
  unfold result
  rw [bind_of_ok hread, bind_of_ok hfind]
  cases hsymbol : env.stack.find? resultName with
  | some symbol => exact .ok (h.funcs.find? hsymbol) h
  | none => exact .ok trivial h

/-! ## Evaluation -/

/-- The last step of a task does not notice a frame that the task uses no name of. A name is bound
only where there is a frame over it. -/
theorem Step.overlooks {d : Deeds} {gains : Bool} {s : Step gains α}
    (h : s.Meets (.apart extra) d post) (hk : gains = true → 0 < k) :
    Overlooks extra k k post s.run := by
  cases s with
  | done a => exact .pure h
  | fail e => exact fun _ _ henv => .error henv.sink
  | lookup ident => exact (overlooks_lookup (Frame.apart_name.1 h.1).1).imp h.2
  | update e range new answer =>
    obtain ⟨he, -, -, hnew⟩ := h
    refine (overlooks_target he).bind fun p hp => ?_
    cases hvalue : new p.2 with
    | error fault => exact fun _ _ henv => .error henv.sink
    | ok v =>
      obtain ⟨hv, hanswer⟩ := (hnew p.2 hp.2).2 v hvalue
      exact overlooks_assign hp.1 hv hanswer
  | deliver v =>
    obtain ⟨⟨value, range, hreturn⟩, -, hv, hpost⟩ := h
    exact overlooks_assign (Frame.apart_word.1 hreturn).1 hv hpost
  | bind name symbol range =>
    obtain ⟨j, rfl⟩ := Nat.exists_eq_add_one.2 (hk rfl)
    exact (overlooks_add name h.1 range).imp fun _ _ => h.2.2
  | print args => exact (overlooks_print args).bind fun _ _ => .pure h

/-- The number of frames over the one that is put in, where `k` are over it in the end. -/
def Innermost.over : Innermost → Nat → Nat
  | .given _, k => k
  | .own, k => k + 1

section

variable {n : Nat}
  (ih : ∀ {t : Task} {k : Nat}, t.Allowed (.apart extra) → (t.mayDeclare = true → 0 < k) →
    Overlooks extra k k (t.Answers (.apart extra)) (t.perform n))

include ih

/-- A call has a frame of its own, and in it the slot for its result. Whatever the frame that is put
in binds, the result is read from the slot. -/
theorem overlooks_invoke {f : Func} {args : List Value} (hf : extra.ApartFunc f)
    (hargs : ∀ v ∈ args, v.Funcs extra.ApartFunc) :
    Overlooks extra k k (Value.Funcs extra.ApartFunc)
      (enter f args >>= fun _ => stmts n f.body.stmts >>= leave) := by
  intro env env' henv
  have hnull : (Symbol.mk .var .null).value.Funcs extra.ApartFunc := trivial
  have henter : Overlooks extra k (k + 1) (fun _ => True) (enter f args) :=
    overlooks_push.bind fun _ _ => (overlooks_add _ hnull _).bind fun _ _ =>
      overlooks_bindArgs f.params hargs
  have hbody := ih (t := .stmts f.body.stmts) (Task.allowed_body hf) fun _ => Nat.succ_pos k
  refine (henter env env' henv).bind fun _ _ start start' henter hstart => ?_
  refine (hbody start start' hstart).bind fun flow _ last last' hran hlast => ?_
  have hresult := overlooked_result hlast (binds_of_enter henter hran)
  cases flow with
  | «break» range => exact .error hlast.sink
  | «continue» range => exact .error hlast.sink
  | _ => exact hresult.bind fun v hv _ _ _ hend => overlooks_close hv _ _ hend

/-- What a plan does goes unnoticed if its tasks do. -/
theorem Plan.overlooks {d : Deeds} {i : Innermost} {plan : Plan i α}
    (h : plan.Meets (.apart extra) d post) (hk : i.gains = true → 0 < i.over k) :
    Overlooks extra (i.over k) k post (plan.run n) := by
  induction plan with
  | step s => exact s.overlooks h hk
  | task t ht next ihnext =>
    refine (ih h.1.allowed fun hmay => hk (ht hmay)).bind fun a ha => ?_
    exact ihnext a (h.2 a ha) hk
  | framed t next ihnext =>
    refine overlooks_push.bind fun _ _ => (ih h.1.allowed fun _ => Nat.succ_pos k).bind ?_
    exact fun a ha => ihnext a (h.2 a ha) fun _ => Nat.succ_pos k
  | close a => exact overlooks_close h
  | call f args range =>
    have hrun := ih (k := k) h.1 fun hmay => absurd hmay Bool.false_ne_true
    exact overlooks_calling range (hrun.imp h.2.2)
  | invoke f args =>
    obtain ⟨⟨-, hf, hargs⟩, -, hpost⟩ := h
    exact (overlooks_invoke ih hf hargs).imp hpost
  | main next ihnext => exact h.1.elim

end

/-- A task does not notice a frame that it uses no name of. One that may declare something needs a
frame over it. -/
theorem overlooks_perform (n : Nat) {t : Task} (h : t.Allowed (.apart extra))
    (hk : t.mayDeclare = true → 0 < k) :
    Overlooks extra k k (t.Answers (.apart extra)) (t.perform n) := by
  induction n generalizing t k with
  | zero =>
    intro env env' henv
    rw [t.perform_zero, t.perform_zero]
    exact .error henv.sink
  | succ n ih =>
    rw [Task.perform_succ]
    exact Plan.overlooks ih (Task.meets_plan h) hk

end Eval

end Rill
