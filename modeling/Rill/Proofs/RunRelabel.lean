import Rill.Proofs.Plan
import Rill.Proofs.Relabel

/-!
# Runs do not look at labels

A run reads the ranges, numbers and type annotations of a tree only to pass them on : ranges end up
in errors and in the jumps that leave a loop, functions keep their declarations. So changing the
labels of a tree changes nothing but the labels in what its run leaves. `Eval.Commutes f g act act'`
says that `act'` does to a relabelled environment what `act` does to the original one, and
`Program.commutes_run` and `Script.commutes_run` that programs and scripts behave so under every
relabelling that leaves the unknown range alone.

The plans of a task and of the relabelled task match step by step (`Eval.relabelled_plan`). So the
runs commute, by induction on the number of steps (`Eval.commutes_perform`).
-/

namespace Rill

/-! ## Values and environments -/

/-- A function with its labels changed. -/
def Callable.relabel (f : Relabel) : Callable → Callable
  | .print => .print
  | .user d => .user (d.relabel f)

/-- A value with its labels changed. -/
def Value.relabel (f : Relabel) : Value → Value
  | .function c => .function (c.relabel f)
  | v => v

/-- A symbol with its labels changed. -/
def Symbol.relabel (f : Relabel) (s : Symbol) : Symbol := ⟨s.kind, s.value.relabel f⟩

/-- A frame with its labels changed. -/
def Frame.relabel (f : Relabel) (frame : Frame) : Frame :=
  ⟨frame.entries.map fun e => (e.1, e.2.relabel f)⟩

/-- A stack with its labels changed. -/
def Stack.relabel (f : Relabel) (s : Stack) : Stack :=
  ⟨s.inner.map (Frame.relabel f), s.bottom.relabel f⟩

/-- An environment with its labels changed. -/
def Env.relabel (f : Relabel) (env : Env) : Env := { env with stack := env.stack.relabel f }

/-- A runtime error with its label changed. -/
def RuntimeError.relabel (f : Relabel) (e : RuntimeError) : RuntimeError :=
  ⟨e.fault, f.range e.range⟩

/-- A stop with its label changed. -/
def Stop.relabel (f : Relabel) : Stop → Stop
  | .failed e => .failed (e.relabel f)
  | .exhausted => .exhausted

/-- A flow with its label changed. -/
def Flow.relabel (f : Relabel) : Flow → Flow
  | .normal => .normal
  | .break range => .break (f.range range)
  | .continue range => .continue (f.range range)
  | .return v => .return (v.relabel f)

namespace Value

variable (f : Relabel)

/-- Labels are no part of the kind of a value. -/
@[simp]
theorem kind_relabel (v : Value) : (v.relabel f).kind = v.kind := by cases v <;> rfl

@[simp]
theorem bool?_relabel (v : Value) : (v.relabel f).bool? = v.bool? := by cases v <;> rfl

/-- A function is displayed by its name alone, so labels are not shown. -/
@[simp]
theorem display_relabel (v : Value) : (v.relabel f).display = v.display := by cases v <;> rfl

/-- What is written out of a value does not depend on labels. -/
@[simp]
theorem cut_relabel (c : Cutting) (v : Value) : c.pieces (v.relabel f) = c.pieces v := by
  cases v with
  | function g => exact c.function _ g
  | _ => rfl

@[simp]
theorem relabel_ofLiteral (l : Literal) : (ofLiteral l).relabel f = ofLiteral l := by cases l <;>
  rfl

/-! No operation gives a function, so the result of an operation has no labels. -/

theorem map_boolBinary (op : BinaryOp) (a b : Bool) :
    (boolBinary op a b).map (relabel f) = boolBinary op a b := by
  cases op with
  | arith op => cases op <;> cases b <;> rfl
  | _ => rfl

theorem map_intBinary (op : BinaryOp) (a b : Int64) :
    (intBinary op a b).map (relabel f) = intBinary op a b := by
  cases op with
  | arith op => cases op <;> simp only [intBinary, intArith] <;> (try split) <;> rfl
  | _ => rfl

theorem map_floatBinary (op : BinaryOp) (a b : Float) :
    (floatBinary op a b).map (relabel f) = floatBinary op a b := by
  cases op <;> rfl

theorem map_charBinary (op : BinaryOp) (a b : Char) :
    (charBinary op a b).map (relabel f) = charBinary op a b := by
  cases op <;> rfl

theorem map_stringBinary (op : BinaryOp) (a b : String) :
    (stringBinary op a b).map (relabel f) = stringBinary op a b := by
  cases op with
  | arith op => cases op <;> rfl
  | _ => rfl

theorem map_nullBinary (op : BinaryOp) : (nullBinary op).map (relabel f) = nullBinary op := by
  cases op with
  | compare c => cases c <;> rfl
  | _ => rfl

/-- Operators do not see labels : the result of relabelled operands is the relabelled result, and a
fault stays as it is. -/
theorem binary_relabel (op : BinaryOp) (a b : Value) :
    binary op (a.relabel f) (b.relabel f) = (binary op a b).map (relabel f) := by
  unfold binary
  by_cases h : op.isAssignment
  · simp [h, unsupported, Except.map]
  · simp only [h, Bool.false_eq_true, if_false]
    cases a <;> cases b
    case null.null => exact (map_nullBinary f op).symm
    case bool.bool a b => exact (map_boolBinary f op a b).symm
    case int.int a b => exact (map_intBinary f op a b).symm
    case float.float a b => exact (map_floatBinary f op a b).symm
    case char.char a b => exact (map_charBinary f op a b).symm
    case string.string a b => exact (map_stringBinary f op a b).symm
    all_goals rfl

theorem unary_relabel (op : UnaryOp) (a : Value) :
    unary op (a.relabel f) = (unary op a).map (relabel f) := by
  cases op <;> cases a <;> rfl

theorem step_relabel (op : UnaryOp) (a : Value) :
    step op (a.relabel f) = (step op a).map (relabel f) := by
  cases a <;> rfl

theorem member_relabel (a : Value) (name : String) :
    (a.relabel f).member name = (a.member name).map (relabel f) := by
  cases a with
  | string s =>
    simp only [relabel, member]
    split <;> rfl
  | _ => rfl

/-- An element of a relabelled value is the relabelled element. -/
theorem subscript_relabel (a b : Value) :
    (a.relabel f).subscript (b.relabel f) = (a.subscript b).map (relabel f) := by
  cases a <;> cases b <;> simp only [relabel, subscript, unsupported, Except.map, kind]
  case string.int s i =>
    cases charAt? s i <;> rfl

end Value

namespace Flow

variable (f : Relabel)

/-- What a loop does after a pass does not depend on labels. -/
theorem afterPass_relabel (flow : Flow) :
    (flow.relabel f).afterPass = flow.afterPass.map (Flow.relabel f) := by
  cases flow <;> rfl

theorem afterSwitch_relabel (flow : Flow) :
    (flow.relabel f).afterSwitch = flow.afterSwitch.relabel f := by
  cases flow <;> rfl

end Flow

/-! ## Names -/

namespace Frame

variable (f : Relabel) (frame : Frame)

/-- A name is bound in a relabelled frame to the relabelled symbol. -/
theorem get?_relabel (name : String) :
    (frame.relabel f).get? name = (frame.get? name).map (Symbol.relabel f) := by
  simp only [get?, relabel]
  induction frame.entries with
  | nil => rfl
  | cons e rest ih =>
    obtain ⟨other, symbol⟩ := e
    simp only [List.map_cons, List.lookup_cons, ih]
    split <;> rfl

theorem add?_relabel (name : String) (symbol : Symbol) :
    (frame.relabel f).add? name (symbol.relabel f) = (frame.add? name symbol).map (relabel f) := by
  simp only [add?, contains, get?_relabel, Option.isSome_map]
  by_cases h : (frame.get? name).isSome <;> simp [h, relabel]

/-- Entries can be set in a relabelled frame just when they can in the original one. -/
theorem setIn?_relabel (name : String) (value : Value) (entries : List (String × Symbol)) :
    setIn? name (value.relabel f) (entries.map fun e => (e.1, e.2.relabel f)) =
      (setIn? name value entries).map (List.map fun e => (e.1, e.2.relabel f)) := by
  induction entries with
  | nil => rfl
  | cons e rest ih =>
    obtain ⟨other, symbol⟩ := e
    simp only [List.map_cons, setIn?]
    split
    · rfl
    · rw [ih]
      cases setIn? name value rest <;> rfl

theorem set?_relabel (name : String) (value : Value) :
    (frame.relabel f).set? name (value.relabel f) = (frame.set? name value).map (relabel f) := by
  simp only [set?, relabel, setIn?_relabel]
  cases setIn? name value frame.entries <;> rfl

end Frame

namespace Stack

variable (f : Relabel) (s : Stack)

theorem push_relabel : (s.relabel f).push = s.push.relabel f := rfl

theorem pop_relabel : (s.relabel f).pop = s.pop.relabel f := by
  simp [pop, relabel]

theorem add?_relabel (name : String) (symbol : Symbol) :
    (s.relabel f).add? name (symbol.relabel f) = (s.add? name symbol).map (relabel f) := by
  obtain ⟨inner, bottom⟩ := s
  cases inner with
  | nil =>
    simp only [add?, relabel, List.map_nil, Frame.add?_relabel]
    cases bottom.add? name symbol <;> rfl
  | cons top rest =>
    simp only [add?, relabel, List.map_cons, Frame.add?_relabel]
    cases top.add? name symbol <;> rfl

/-- A name is found in the same frame. -/
theorem findIn?_relabel (name : String) (frames : List Frame) :
    findIn? name (frames.map (Frame.relabel f)) = (findIn? name frames).map (Symbol.relabel f) := by
  induction frames with
  | nil => rfl
  | cons frame rest ih =>
    simp only [List.map_cons, findIn?, Frame.get?_relabel, ih]
    cases frame.get? name <;> rfl

/-- A name has in a relabelled stack the relabelled symbol. -/
theorem find?_relabel (name : String) :
    (s.relabel f).find? name = (s.find? name).map (Symbol.relabel f) := by
  simp only [find?, relabel, findIn?_relabel, Frame.get?_relabel]
  cases findIn? name s.inner <;> rfl

theorem setIn?_relabel (name : String) (value : Value) (frames : List Frame) :
    setIn? name (value.relabel f) (frames.map (Frame.relabel f)) =
      (setIn? name value frames).map (List.map (Frame.relabel f)) := by
  induction frames with
  | nil => rfl
  | cons frame rest ih =>
    simp only [List.map_cons, setIn?, Frame.set?_relabel, ih]
    cases frame.set? name value with
    | some new => rfl
    | none => cases setIn? name value rest <;> rfl

/-- A name is set in the same frame of a relabelled stack. -/
theorem set?_relabel (name : String) (value : Value) :
    (s.relabel f).set? name (value.relabel f) = (s.set? name value).map (relabel f) := by
  simp only [set?, relabel, setIn?_relabel, Frame.set?_relabel]
  cases setIn? name value s.inner with
  | some inner => rfl
  | none => cases s.bottom.set? name value <;> rfl

end Stack

/-! ## Steps -/

/-- A fault is raised at the relabelled place, since the unknown place keeps its label. -/
theorem RuntimeFault.relabel_at {f : Relabel} (hf : f.range .unknown = .unknown)
    (fault : RuntimeFault) (range : Range) :
    (fault.at range).relabel f = fault.at (f.range range) := by
  have hunknown : Range.isUnknown .unknown = true := rfl
  simp only [RuntimeFault.at, RuntimeError.locate, RuntimeError.relabel, hunknown, Bool.and_true]
  split <;> simp [hf]

namespace Eval

variable {f : Relabel} {α β γ δ : Type}

/-- What a step leaves, with its labels changed and its result by `g`. -/
def relabelResult (f : Relabel) (g : α → β) : EStateM.Result Stop Env α → EStateM.Result Stop Env β
  | .ok a env => .ok (g a) (env.relabel f)
  | .error stop env => .error (stop.relabel f) (env.relabel f)

/-- `act'` does to a relabelled environment what `act` does to the original one. -/
def Commutes (f : Relabel) (g : α → β) (act : Eval α) (act' : Eval β) : Prop :=
  ∀ env, act' (env.relabel f) = relabelResult f g (act env)

theorem Commutes.pure {g : α → β} {a : α} {b : β} (h : b = g a) :
    Commutes f g (Pure.pure a) (Pure.pure b) := fun _ => by rw [h]; rfl

/-- Steps in sequence commute with a change of labels if each does. -/
theorem Commutes.bind {g : α → β} {h : γ → δ} {act : Eval α} {act' : Eval β} {k : α → Eval γ}
    {k' : β → Eval δ} (hact : Commutes f g act act') (hk : ∀ a, Commutes f h (k a) (k' (g a))) :
    Commutes f h (act >>= k) (act' >>= k') := by
  intro env
  have hrun := hact env
  simp only [Bind.bind, EStateM.bind]
  rw [hrun]
  cases act env with
  | ok a env' => exact hk a env'
  | error stop env' => rfl

/-- A choice by a test that relabelling does not change. -/
theorem Commutes.ite {g : α → β} {c : Prop} [Decidable c] {act other : Eval α}
    {act' other' : Eval β} (hpos : Commutes f g act act') (hneg : Commutes f g other other') :
    Commutes f g (if c then act else other) (if c then act' else other') := by
  split
  · exact hpos
  · exact hneg

/-- A failure moves with the place it is raised at. -/
theorem commutes_fail {g : α → β} (fault : RuntimeFault) (range : Range) :
    Commutes f g (fail fault range) (fail fault (f.range range)) := fun _ => rfl

/-- The outcome of an operation commutes with a change of labels. -/
theorem commutes_located {g : α → β} (hf : f.range .unknown = .unknown) (range : Range)
    (r : Except RuntimeFault α) :
    Commutes f g (located range r) (located (f.range range) (r.map g)) := by
  cases r with
  | ok a => exact Commutes.pure rfl
  | error fault =>
    intro env
    simp only [located, Except.map, ← RuntimeFault.relabel_at hf]
    rfl

/-- A change of the stack commutes with a change of labels if it does on every stack. -/
theorem commutes_modifyStack {h h' : Stack → Stack}
    (hstack : ∀ s, h' (s.relabel f) = (h s).relabel f) :
    Commutes f id (modifyStack h) (modifyStack h') := by
  intro env
  exact congrArg (fun s => EStateM.Result.ok () { env.relabel f with stack := s })
    (hstack env.stack)

theorem commutes_push : Commutes f id push push := commutes_modifyStack (Stack.push_relabel f)

theorem commutes_pop : Commutes f id pop pop := commutes_modifyStack (Stack.pop_relabel f)

theorem commutes_set (name : String) (value : Value) :
    Commutes f id (set name value) (set name (value.relabel f)) := by
  refine commutes_modifyStack fun s => ?_
  rw [Stack.set?_relabel]
  cases s.set? name value <;> rfl

/-- A name that is declared twice is refused at the relabelled place. -/
theorem commutes_add (name : String) (symbol : Symbol) (range : Range) :
    Commutes f id (add name symbol range) (add name (symbol.relabel f) (f.range range)) := by
  intro env
  have hadd := env.stack.add?_relabel f name symbol
  simp only [add, Env.relabel, hadd]
  cases env.stack.add? name symbol <;> rfl

theorem commutes_find? (name : String) :
    Commutes f (Option.map (Symbol.relabel f)) (find? name) (find? name) := by
  intro env
  exact congrArg (EStateM.Result.ok · (env.relabel f)) (env.stack.find?_relabel f name)

/-- The value of a name is found in the relabelled stack, or its absence is told at the relabelled
place. -/
theorem commutes_lookup (ident : Ident) :
    Commutes f (Value.relabel f) (lookup ident) (lookup (ident.mapRange f.range)) := by
  refine (commutes_find? ident.name).bind fun symbol => ?_
  cases symbol with
  | some symbol => exact Commutes.pure rfl
  | none => exact Commutes.ite (Commutes.pure rfl) (commutes_fail _ _)

theorem commutes_target (e : Expr) :
    Commutes f (Prod.map id (Value.relabel f)) (target e) (target (e.mapRange f.range)) := by
  cases e with
  | name ident =>
    refine (commutes_find? ident.name).bind fun symbol => ?_
    cases symbol with
    | none => exact commutes_fail _ _
    | some symbol =>
      obtain ⟨kind, value⟩ := symbol
      cases kind with
      | var => exact Commutes.pure rfl
      | const | func => exact commutes_fail _ _
  | _ => exact commutes_fail _ _

theorem commutes_write (hf : f.range .unknown = .unknown) (pieces : List String) :
    Commutes f id (write pieces) (write pieces) := by
  intro env
  simp only [write, Env.relabel]
  cases env.sink.writeAll pieces with
  | mk refused sink =>
    cases refused with
    | none => rfl
    | some message => simp [relabelResult, Stop.relabel, RuntimeError.relabel, hf, Env.relabel]

/-- The same texts are written for relabelled values. -/
theorem commutes_print (hf : f.range .unknown = .unknown) (args : List Value) :
    Commutes f id (print args) (print (args.map (Value.relabel f))) := by
  intro env
  have hpieces : (args.map (Value.relabel f)).flatMap env.cutting.pieces =
      args.flatMap env.cutting.pieces := by
    simp [List.flatMap_map]
  have hprint : print (args.map (Value.relabel f)) (env.relabel f) =
      write ((args.map (Value.relabel f)).flatMap env.cutting.pieces ++ ["\n"]) (env.relabel f) :=
    rfl
  rw [hprint, hpieces]
  exact commutes_write hf _ env

/-- A call is refused at the limit whatever its labels are. -/
theorem commutes_calling {g : α → β} {act : Eval α} {act' : Eval β} (range : Range)
    (h : Commutes f g act act') :
    Commutes f g (calling range act) (calling (f.range range) act') := by
  intro env
  have hrun := h { env with callDepth := env.callDepth + 1 }
  simp only [Env.relabel] at hrun
  by_cases hdepth : env.maxCallDepth ≤ env.callDepth
  · simp only [calling, Env.relabel, hdepth, if_true]
    rfl
  · simp only [calling, Env.relabel, hdepth, if_false]
    rw [hrun]
    cases act { env with callDepth := env.callDepth + 1 } <;> rfl

theorem commutes_bindArgs (params : List Variable) (args : List Value) :
    Commutes f id (bindArgs params args)
      (bindArgs (params.map (Variable.relabel f)) (args.map (Value.relabel f))) := by
  induction params generalizing args with
  | nil => exact Commutes.pure rfl
  | cons param params ih =>
    cases args with
    | nil => exact Commutes.pure rfl
    | cons arg args => exact (commutes_add _ ⟨.var, arg⟩ _).bind fun _ => ih args

/-- The relabelled function is entered with its relabelled parameters. -/
theorem commutes_enter (d : Func) (args : List Value) :
    Commutes f id (enter d args) (enter (d.relabel f) (args.map (Value.relabel f))) := by
  obtain ⟨id, ident, type, params, body, scope, ownScope, range⟩ := d
  refine commutes_push.bind fun _ => (commutes_add resultName ⟨.var, .null⟩ range).bind fun _ => ?_
  exact commutes_bindArgs params args

/-- The result of a call is taken from the relabelled stack. -/
theorem commutes_leave (flow : Flow) :
    Commutes f (Value.relabel f) (leave flow) (leave (flow.relabel f)) := by
  have hresult : Commutes f (Value.relabel f) result result := by
    refine (commutes_find? resultName).bind fun symbol => ?_
    cases symbol <;> exact .pure rfl
  cases flow with
  | «break» range => exact commutes_fail _ _
  | «continue» range => exact commutes_fail _ _
  | _ => exact hresult.bind fun v => commutes_pop.bind fun _ => .pure rfl

/-- Setting a name to what is made of its value, by an operation that does not look at labels. -/
theorem commutes_update (hf : f.range .unknown = .unknown) {gains gains' : Bool} (e : Expr)
    (range : Range) {new new' : Value → Except RuntimeFault Value}
    {answer answer' : Value → Value → Value}
    (hnew : ∀ old, new' (old.relabel f) = (new old).map (Value.relabel f))
    (hanswer : ∀ old v, answer' (old.relabel f) (v.relabel f) = (answer old v).relabel f) :
    Commutes f (Value.relabel f) (Step.update e range new answer : Step gains Value).run
      (Step.update (e.mapRange f.range) (f.range range) new' answer' : Step gains' Value).run := by
  refine (commutes_target e).bind fun old => ?_
  simp only [Prod.map, hnew]
  refine (commutes_located hf range _).bind fun v => (commutes_set old.1 v).bind fun _ => ?_
  exact .pure (hanswer old.2 v)

/-- The main function is the relabelled one, and its absence has no place. -/
theorem commutes_mainFunction (hf : f.range .unknown = .unknown) :
    Commutes f (Func.relabel f) mainFunction mainFunction := by
  have hfail :
      Commutes f (Func.relabel f) (fail .noMainFunction .unknown)
        (fail .noMainFunction .unknown) := by
    have h := commutes_fail (f := f) (g := Func.relabel f) .noMainFunction .unknown
    rwa [hf] at h
  refine (commutes_find? "main").bind fun symbol => ?_
  cases symbol with
  | none => exact hfail
  | some symbol =>
    obtain ⟨kind, value⟩ := symbol
    cases value with
    | function c =>
      cases c with
      | print => cases kind <;> exact hfail
      | user d =>
        cases kind with
        | func => exact Commutes.pure rfl
        | var | const => exact hfail
    | _ => cases kind <;> exact hfail

/-! ## Plans -/

/-- A task with the labels of its tree and values changed. -/
def Task.relabel (f : Relabel) : Task → Task
  | .expr e => .expr (e.mapRange f.range)
  | .expr? e => .expr? (e.map (Expr.mapRange f.range))
  | .test c => .test (c.map (Expr.mapRange f.range))
  | .exprs es => .exprs (es.map (Expr.mapRange f.range))
  | .call d args range => .call (d.relabel f) (args.map (Value.relabel f)) (f.range range)
  | .run d args => .run (d.relabel f) (args.map (Value.relabel f))
  | .stmt s => .stmt (s.relabel f)
  | .stmt? s => .stmt? (Stmt.relabel? f s)
  | .stmts ss => .stmts (Stmt.relabelAll f ss)
  | .loop c step body =>
    .loop (c.map (Expr.mapRange f.range)) (step.map (Expr.mapRange f.range)) (body.relabel f)
  | .doLoop body c => .doLoop (body.relabel f) (c.mapRange f.range)
  | .entry v ss fallback =>
    .entry (v.relabel f) (Stmt.relabelAll f ss) (fallback.map (Stmt.relabelAll f))
  | .declare allowed d => .declare allowed (d.relabel f)

/-- The answer of a task with its labels changed. -/
def Task.relabelAnswer (f : Relabel) : (t : Task) → t.Answer → (t.relabel f).Answer
  | .expr _, v | .expr? _, v | .call .., v | .run .., v => Value.relabel f v
  | .exprs _, vs => List.map (Value.relabel f) vs
  | .stmt _, flow | .stmt? _, flow | .stmts _, flow | .loop .., flow | .doLoop .., flow =>
    Flow.relabel f flow
  | .entry .., found => Option.map (Stmt.relabelAll f) found
  | .test _, holds => holds
  | .declare .., _ => ()

/-- The second plan does to relabelled tasks what the first does to the original ones, and its
answer is the relabelled one. -/
inductive Plan.Relabelled (f : Relabel) :
    {i i' : Innermost} → {α β : Type} → (α → β) → Plan i α → Plan i' β → Prop
  | step {gains gains' : Bool} {α β : Type} {g : α → β} {s : Step gains α} {s' : Step gains' β}
      (h : Commutes f g s.run s'.run) : Relabelled f g (.step s) (.step s')
  | task {i i' : Innermost} {α β : Type} {g : α → β} (t : Task)
      {h : t.mayDeclare = true → i.gains = true}
      {h' : (t.relabel f).mayDeclare = true → i'.gains = true}
      {k : t.Answer → Plan i α} {k' : (t.relabel f).Answer → Plan i' β}
      (hk : ∀ a, Relabelled f g (k a) (k' (t.relabelAnswer f a))) :
      Relabelled f g (.task t h k) (.task (t.relabel f) h' k')
  | framed {gains gains' : Bool} {α β : Type} {g : α → β} (t : Task)
      {k : t.Answer → Plan .own α} {k' : (t.relabel f).Answer → Plan .own β}
      (hk : ∀ a, Relabelled f g (k a) (k' (t.relabelAnswer f a))) :
      Relabelled f g (.framed t k : Plan (.given gains) α)
        (.framed (t.relabel f) k' : Plan (.given gains') β)
  | close {α β : Type} {g : α → β} {a : α} {b : β} (h : b = g a) :
      Relabelled f g (.close a) (.close b)
  | call {gains gains' : Bool} (d : Func) (args : List Value) (range : Range) :
      Relabelled f (Value.relabel f) (.call d args range : Plan (.given gains) Value)
        (.call (d.relabel f) (args.map (Value.relabel f)) (f.range range) :
          Plan (.given gains') Value)
  | invoke {gains gains' : Bool} (d : Func) (args : List Value) :
      Relabelled f (Value.relabel f) (.invoke d args : Plan (.given gains) Value)
        (.invoke (d.relabel f) (args.map (Value.relabel f)) : Plan (.given gains') Value)
  | main {gains gains' : Bool} {α β : Type} {g : α → β} {k : Func → Plan (.given gains) α}
      {k' : Func → Plan (.given gains') β} (hk : ∀ d, Relabelled f g (k d) (k' (d.relabel f))) :
      Relabelled f g (.main k) (.main k')

namespace Plan.Relabelled

variable {gains gains' : Bool} {g : α → β}

theorem done {a : α} {b : β} (h : b = g a) :
    Relabelled f g (.done a : Plan (.given gains) α) (.done b : Plan (.given gains') β) :=
  .step (.pure h)

theorem fail (fault : RuntimeFault) (range : Range) :
    Relabelled f g (.fail fault range : Plan (.given gains) α)
      (.fail fault (f.range range) : Plan (.given gains') β) := .step (commutes_fail fault range)

theorem ite {i i' : Innermost} {c : Prop} [Decidable c] {p q : Plan i α} {p' q' : Plan i' β}
    (h : Relabelled f g p p') (hother : Relabelled f g q q') :
    Relabelled f g (if c then p else q) (if c then p' else q') := by
  split
  · exact h
  · exact hother

/-- Plans that go on alike after an operation are alike with the operation in front. -/
theorem located (hf : f.range .unknown = .unknown) {h : γ → δ} (range : Range)
    (r : Except RuntimeFault γ) {k : γ → Plan (.given gains) α} {k' : δ → Plan (.given gains') β}
    (hk : ∀ a, Relabelled f g (k a) (k' (h a))) :
    Relabelled f g (.located range r k) (.located (f.range range) (r.map h) k') := by
  cases r with
  | ok a => exact hk a
  | error fault =>
    refine .step fun env => ?_
    simp only [Step.run, ← RuntimeFault.relabel_at hf]
    rfl

theorem condition (e : Expr) (v : Value) {k : Bool → Plan (.given gains) α}
    {k' : Bool → Plan (.given gains') β} (hk : ∀ holds, Relabelled f g (k holds) (k' holds)) :
    Relabelled f g (.condition e v k) (.condition (e.mapRange f.range) (v.relabel f) k') := by
  simp only [Plan.condition, Value.bool?_relabel, Value.kind_relabel, Expr.range_mapRange]
  cases v.bool? with
  | some holds => exact hk holds
  | none => exact .fail _ _

theorem operand (op : Logical) (e : Expr) (v : Value) {k : Bool → Plan (.given gains) α}
    {k' : Bool → Plan (.given gains') β} (hk : ∀ b, Relabelled f g (k b) (k' b)) :
    Relabelled f g (.operand op e v k) (.operand op (e.mapRange f.range) (v.relabel f) k') := by
  simp only [Plan.operand, Value.bool?_relabel, Value.kind_relabel, Expr.range_mapRange]
  cases v.bool? with
  | some b => exact hk b
  | none => exact .fail _ _

/-- Relabelled plans commute if the tasks that they start do. -/
theorem commutes {n : Nat}
    (ih : ∀ t : Task, Commutes f (t.relabelAnswer f) (t.perform n) ((t.relabel f).perform n))
    {i i' : Innermost} {p : Plan i α} {p' : Plan i' β} (h : Relabelled f g p p')
    (hf : f.range .unknown = .unknown) : Commutes f g (p.run n) (p'.run n) := by
  induction h with
  | step h => exact h
  | task t _ ihk => exact (ih t).bind ihk
  | framed t _ ihk => exact commutes_push.bind fun _ => (ih t).bind ihk
  | close h => exact commutes_pop.bind fun _ => .pure h
  | call d args range => exact commutes_calling range (ih (.run d args))
  | invoke d args =>
    obtain ⟨id, ident, type, params, ⟨stmts, bscope, brange⟩, scope, ownScope, drange⟩ := d
    exact (commutes_enter _ args).bind fun _ => (ih (.stmts stmts)).bind commutes_leave
  | main _ ihk => exact (commutes_mainFunction hf).bind ihk

end Plan.Relabelled

/-! ## The plans of tasks -/

section

variable (hf : f.range .unknown = .unknown)

include hf

/-- The plan of a binary expression, for each group of operators. -/
theorem relabelled_binary (op : BinaryOp) (lhs rhs : Expr) (range : Range) :
    Plan.Relabelled f (Value.relabel f) (exprPlan (.binary op lhs rhs range))
      (exprPlan (.binary op (lhs.mapRange f.range) (rhs.mapRange f.range) (f.range range))) := by
  cases op with
  | assign =>
    refine .task (.expr rhs) fun v => .step (commutes_update hf lhs range ?_ ?_)
    · exact fun _ => rfl
    · exact fun _ _ => rfl
  | compound op =>
    refine .task (.expr rhs) fun v => .step (commutes_update hf lhs range ?_ ?_)
    · exact fun old => Value.binary_relabel f _ old v
    · exact fun _ _ => rfl
  | logical op =>
    refine .task (.expr lhs) fun v => .operand op lhs v fun a => .ite (.done rfl) ?_
    exact .task (.expr rhs) fun w => .operand op rhs w fun b => .done rfl
  | arith op | compare op =>
    refine .task (.expr lhs) fun a => .task (.expr rhs) fun b => ?_
    simp only [Task.relabelAnswer, Value.binary_relabel]
    exact .located hf range _ fun v => .done rfl

/-- What an expression does, its relabelled form does with relabelled parts. -/
theorem relabelled_exprPlan (e : Expr) :
    Plan.Relabelled f (Value.relabel f) (exprPlan e) (exprPlan (e.mapRange f.range)) := by
  cases e with
  | literal value range => exact .done (Value.relabel_ofLiteral f value).symm
  | name ident => exact .step (commutes_lookup ident)
  | paren inner range => exact .task (.expr inner) fun _ => .done rfl
  | unary op operand range =>
    refine .ite (.step (commutes_update hf operand range ?_ ?_)) (.task (.expr operand) fun v => ?_)
    · exact Value.step_relabel f op
    · intro old new
      split <;> rfl
    · simp only [Task.relabelAnswer, Value.unary_relabel]
      exact .located hf range _ fun _ => .done rfl
  | binary op lhs rhs range => exact relabelled_binary hf op lhs rhs range
  | ternary c a b range =>
    refine .task (.expr c) fun v => .condition c v fun holds => .ite ?_ ?_
    · exact .task (.expr a) fun _ => .done rfl
    · exact .task (.expr b) fun _ => .done rfl
  | member object field range =>
    refine .task (.expr object) fun v => ?_
    simp only [Task.relabelAnswer, Ident.mapRange, Value.member_relabel]
    exact .located hf range _ fun _ => .done rfl
  | subscript object index range =>
    refine .task (.expr object) fun a => .task (.expr index) fun b => ?_
    simp only [Task.relabelAnswer, Value.subscript_relabel]
    exact .located hf range _ fun _ => .done rfl
  | call callee args range =>
    rw [Expr.mapRange, Expr.mapRangeAll_eq_map]
    refine .task (.expr callee) fun v => ?_
    cases v with
    | function c =>
      cases c with
      | print =>
        refine .task (.exprs args) fun vs => .step ?_
        exact (commutes_print hf vs).bind fun _ => .pure rfl
      | user d => exact .task (.exprs args) fun vs => .task (.call d vs range) fun _ => .done rfl
    | _ =>
      simp only [Task.relabelAnswer, Value.relabel, Expr.range_mapRange]
      exact .fail _ _

omit hf in
/-- What a statement does, its relabelled form does with relabelled parts. -/
theorem relabelled_stmtPlan (s : Stmt) :
    Plan.Relabelled f (Flow.relabel f) (stmtPlan s) (stmtPlan (s.relabel f)) := by
  cases s with
  | expr e range => exact .task (.expr e) fun _ => .done rfl
  | decl d range => exact .task (.declare false d) fun _ => .done rfl
  | block b =>
    obtain ⟨stmts, scope, range⟩ := b
    exact .framed (.stmts stmts) fun _ => .close rfl
  | ifElse c a b range =>
    refine .task (.expr c) fun v => .condition c v fun holds => .ite ?_ ?_
    · exact .task (.stmt a) fun _ => .done rfl
    · exact .task (.stmt? b) fun _ => .done rfl
  | whileDo c body range => exact .task (.loop (some c) none body) fun _ => .done rfl
  | doWhile body c range => exact .task (.doLoop body c) fun _ => .done rfl
  | forLoop init c step body scope range =>
    exact .framed (.stmt? init) fun _ => .task (.loop c step body) fun _ => .close rfl
  | «switch» subject body range =>
    obtain ⟨stmts, scope, brange⟩ := body
    refine .task (.expr subject) fun v => .task (.entry v stmts none) fun found => ?_
    cases found with
    | none => exact .done rfl
    | some rest =>
      exact .framed (.stmts rest) fun flow => .close (Flow.afterSwitch_relabel f flow)
  | caseLabel | defaultLabel | «continue» | «break» => exact .done rfl
  | «return» value range =>
    refine .task (.expr? value) fun v => .step ?_
    exact (commutes_set resultName v).bind fun _ => .pure rfl

/-- The search for the entry of a switch passes the same labels and stops at the same one. -/
theorem relabelled_entry (v : Value) (ss : List Stmt) (fallback : Option (List Stmt)) :
    Plan.Relabelled f (Option.map (Stmt.relabelAll f)) (Task.entry v ss fallback).plan
      ((Task.entry v ss fallback).relabel f).plan := by
  cases ss with
  | nil => exact .done rfl
  | cons s rest =>
    have hrest : Plan.Relabelled f (Option.map (Stmt.relabelAll f))
        (.task (.entry v rest fallback) id .done : Plan (.given false) _)
        (.task ((Task.entry v rest fallback).relabel f) id .done : Plan (.given false) _) :=
      .task (.entry v rest fallback) fun _ => .done rfl
    cases s with
    | caseLabel e range =>
      refine .task (.expr e) fun w => ?_
      simp only [Task.relabelAnswer, Value.binary_relabel]
      refine .located hf range _ fun equal => ?_
      rw [Value.bool?_relabel]
      exact .ite (.done rfl) hrest
    | defaultLabel range =>
      cases fallback with
      | none => exact .task (.entry v rest (some (.defaultLabel range :: rest))) fun _ => .done rfl
      | some kept => exact .task (.entry v rest (some kept)) fun _ => .done rfl
    | _ => exact hrest

omit hf in
/-- A relabelled declaration binds the relabelled value under the same name. -/
theorem relabelled_declare (allowed : Bool) (d : Decl) :
    Plan.Relabelled f (fun _ => ()) (Task.declare allowed d).plan
      (Task.declare allowed (d.relabel f)).plan := by
  cases d with
  | var v => exact .task (.expr? v.init) fun value => .step (commutes_add _ ⟨_, value⟩ _)
  | func d =>
    obtain ⟨id, ident, type, params, body, scope, ownScope, range⟩ := d
    cases allowed with
    | true => exact .step (commutes_add _ ⟨.func, .function (.user _)⟩ _)
    | false => exact .fail _ _
  | group d =>
    obtain ⟨kind, id, ident, members, membersRange, scope, ownScope, range⟩ := d
    cases allowed <;> exact .fail _ _

/-- A relabelled task does the same as the original one, to relabelled tasks. -/
theorem relabelled_plan (t : Task) :
    Plan.Relabelled f (t.relabelAnswer f) t.plan (t.relabel f).plan := by
  cases t with
  | expr e => exact relabelled_exprPlan hf e
  | expr? e =>
    cases e with
    | none => exact .done rfl
    | some e => exact .task (.expr e) fun _ => .done rfl
  | test c =>
    cases c with
    | none => exact .done rfl
    | some c => exact .task (.expr c) fun v => .condition c v fun _ => .done rfl
  | exprs es =>
    cases es with
    | nil => exact .done rfl
    | cons e rest => exact .task (.expr e) fun _ => .task (.exprs rest) fun _ => .done rfl
  | call d args range =>
    obtain ⟨id, ident, type, params, body, scope, ownScope, drange⟩ := d
    simp only [Task.plan, Task.relabel, Func.relabel, Func.arity, List.length_map, Ident.mapRange]
    exact .ite (.fail _ _) (.call _ args range)
  | run d args => exact .invoke d args
  | stmt s => exact relabelled_stmtPlan s
  | stmt? s =>
    cases s with
    | none => exact .done rfl
    | some s => exact .task (.stmt s) fun _ => .done rfl
  | stmts ss =>
    cases ss with
    | nil => exact .done rfl
    | cons s rest =>
      refine .task (.stmt s) fun flow => ?_
      cases flow with
      | normal => exact .task (.stmts rest) fun _ => .done rfl
      | _ => exact .done rfl
  | loop c step body =>
    refine .task (.test c) fun holds => .ite (.task (.stmt body) fun flow => ?_) (.done rfl)
    simp only [Task.relabelAnswer, Flow.afterPass_relabel]
    cases flow.afterPass with
    | some flow => exact .done rfl
    | none => exact .task (.expr? step) fun _ => .task (.loop c step body) fun _ => .done rfl
  | doLoop body c =>
    refine .task (.stmt body) fun flow => ?_
    simp only [Task.relabelAnswer, Flow.afterPass_relabel]
    cases flow.afterPass with
    | some flow => exact .done rfl
    | none =>
      refine .task (.expr c) fun v => .condition c v fun holds => .ite ?_ (.done rfl)
      exact .task (.doLoop body c) fun _ => .done rfl
  | entry v ss fallback => exact relabelled_entry hf v ss fallback
  | declare allowed d => exact relabelled_declare allowed d

/-- Relabelling commutes with every task, whatever number of steps it is given. -/
theorem commutes_perform (n : Nat) (t : Task) :
    Commutes f (t.relabelAnswer f) (t.perform n) ((t.relabel f).perform n) := by
  induction n generalizing t with
  | zero =>
    intro env
    rw [Task.perform_zero, Task.perform_zero]
    rfl
  | succ n ih =>
    rw [Task.perform_succ, Task.perform_succ]
    exact (relabelled_plan hf t).commutes ih hf

/-! ## Programs and scripts -/

omit hf in
theorem relabelled_programPlan {p p' : Program} (h : p'.decls = Decl.relabelAll f p.decls) :
    Plan.Relabelled f (Value.relabel f) (programPlan p) (programPlan p') := by
  unfold programPlan
  rw [h]
  induction p.decls with
  | nil =>
    refine .main fun main => ?_
    obtain ⟨id, ident, type, params, body, scope, ownScope, range⟩ := main
    exact .task (.call _ [] range) fun _ => .done rfl
  | cons d rest ih => exact .task (.declare true d) fun _ => ih

omit hf in
theorem relabelled_outerPlan (ss : List Stmt) :
    Plan.Relabelled f (Value.relabel f) (outerPlan ss) (outerPlan (Stmt.relabelAll f ss)) := by
  induction ss with
  | nil => exact .done rfl
  | cons s rest ih =>
    cases s with
    | decl d range => exact .task (.declare true d) fun _ => ih
    | _ =>
      refine .task (.stmt _) fun flow => ?_
      cases flow with
      | normal => exact ih
      | «return» v => exact .done rfl
      | «break» range => exact .fail _ _
      | «continue» range => exact .fail _ _

end

end Eval

/-- Running a relabelled program is running the program, up to labels. -/
theorem Program.commutes_run {f : Relabel} (hf : f.range .unknown = .unknown) (n : Nat)
    {p p' : Program} (h : p'.decls = Decl.relabelAll f p.decls) :
    Eval.Commutes f (Value.relabel f) (p.run n) (p'.run n) := by
  rw [← Eval.run_programPlan, ← Eval.run_programPlan]
  exact (Eval.relabelled_programPlan h).commutes (Eval.commutes_perform hf n) hf

/-- Running a relabelled script is running the script, up to labels. -/
theorem Script.commutes_run {f : Relabel} (hf : f.range .unknown = .unknown) (n : Nat)
    {s s' : Script} (h : s'.stmts = Stmt.relabelAll f s.stmts) :
    Eval.Commutes f (Value.relabel f) (s.run n) (s'.run n) := by
  unfold Script.run
  rw [h, ← Eval.run_outerPlan, ← Eval.run_outerPlan]
  exact (Eval.relabelled_outerPlan s.stmts).commutes (Eval.commutes_perform hf n) hf

end Rill
