import Rill.Proofs.History

/-!
# What frames keep

An assignment is refused unless the name is bound as a variable in the innermost frame that binds
it, and the value of a `return` goes to the innermost binding of the name `return`, whatever its
kind. So no change that an evaluation makes touches a constant or a function in a frame that stays,
unless its name is `return` (`Env.Change.firm`). The global frame stays on every path; in particular
a program that has bound a function `main` finds that function when its declarations are done
(`Eval.find?_main_of_declareAll`).
-/

namespace Rill

/-- Constants and functions are bound as before, apart from the name `return`. -/
def Frame.Firm (f f' : Frame) : Prop :=
  ∀ x symbol, x ≠ Eval.resultName → f.get? x = some symbol → symbol.kind ≠ .var →
    f'.get? x = some symbol

namespace Frame.Firm

variable {f f' f'' : Frame} {x : String}

theorem refl (f : Frame) : f.Firm f := fun _ _ _ h _ => h

theorem trans (h : f.Firm f') (h' : f'.Firm f'') : f.Firm f'' :=
  fun x symbol hx hsymbol hkind => h' x symbol hx (h x symbol hx hsymbol hkind) hkind

/-- To add a name leaves the others bound as they were. -/
theorem add {symbol : Symbol} (h : f.add? x symbol = some f') : f.Firm f' := by
  intro y found hy hfound hkind
  have hyx : y ≠ x := by
    rintro rfl
    rw [get?_of_add? h] at hfound
    cases hfound
  rw [get?_add? h, if_neg hyx, hfound]

/-- To set a variable leaves constants and functions as they were. -/
theorem set {v : Value} (h : f.set? x v = some f')
    (hx : x = Eval.resultName ∨ ∀ symbol, f.get? x = some symbol → symbol.kind = .var) :
    f.Firm f' := by
  intro y found hy hfound hkind
  have hyx : y ≠ x := by
    rintro rfl
    rcases hx with hx | hx
    · exact hy hx
    · exact hkind (hx found hfound)
  rw [get?_set? h, if_neg hyx, hfound]

end Frame.Firm

namespace Stack

/-- A frame by its height : the global one is at 0. -/
def frame? (s : Stack) (height : Nat) : Option Frame := s.frames.reverse[height]?

/-- Each frame that is in both stacks has its constants and functions as before, apart
from the name `return`. -/
def Firm (s s' : Stack) : Prop :=
  ∀ height f f', s.frame? height = some f → s'.frame? height = some f' → f.Firm f'

variable {s s' : Stack} {x : String}

theorem exists_frame? {height : Nat} (h : height < s.depth) : ∃ f, s.frame? height = some f := by
  have hlength : height < s.frames.reverse.length := by simpa [frames, depth] using h
  exact ⟨_, List.getElem?_eq_getElem hlength⟩

/-! ## Single changes -/

/-- Frames that are opened over others, or dropped, leave the others in their places. -/
theorem Firm.of_frames {above above' l l' : List Frame} (h : s.frames = above ++ l)
    (h' : s'.frames = above' ++ l') (hl : List.Forall₂ Frame.Firm l l')
    (hnil : above = [] ∨ above' = []) : s.Firm s' := by
  intro height f f' hf hf'
  have hlength := hl.length_eq
  simp only [frame?, h, h', List.reverse_append] at hf hf'
  have hheight : height < l.reverse.length := by
    rcases hnil with rfl | rfl
    · simpa using (List.getElem?_eq_some_iff.1 hf).1
    · simpa [hlength] using (List.getElem?_eq_some_iff.1 hf').1
  rw [List.getElem?_append_left hheight] at hf
  rw [List.getElem?_append_left (by simpa [← hlength] using hheight)] at hf'
  obtain ⟨hlt, rfl⟩ := List.getElem?_eq_some_iff.1 hf
  obtain ⟨hlt', rfl⟩ := List.getElem?_eq_some_iff.1 hf'
  exact (List.forall₂_iff_get.1 (List.forall₂_reverse_iff.2 hl)).2 height hlt hlt'

theorem forall₂_firm_refl (l : List Frame) : List.Forall₂ Frame.Firm l l :=
  List.forall₂_same.2 fun f _ => .refl f

/-- A stack is firm when frames are pushed on it. -/
theorem firm_of_suffix (h : s.frames <:+ s'.frames) : s.Firm s' := by
  obtain ⟨above, habove⟩ := h
  exact .of_frames (List.nil_append _).symm habove.symm (forall₂_firm_refl _) (.inl rfl)

/-- A stack is firm when frames are dropped from it. -/
theorem firm_of_suffix' (h : s'.frames <:+ s.frames) : s.Firm s' := by
  obtain ⟨above, habove⟩ := h
  exact .of_frames habove.symm (List.nil_append _).symm (forall₂_firm_refl _) (.inr rfl)

theorem firm_of_forall₂ (h : List.Forall₂ Frame.Firm s.frames s'.frames) : s.Firm s' :=
  .of_frames (List.nil_append _).symm (List.nil_append _).symm h (.inl rfl)

theorem firm_pop (s : Stack) : s.Firm s.pop := by
  obtain ⟨inner, bottom⟩ := s
  cases inner with
  | nil => exact firm_of_suffix (List.suffix_refl _)
  | cons f inner => exact firm_of_suffix' (List.suffix_cons f _)

theorem frames_add? {symbol : Symbol} (h : s.add? x symbol = some s') :
    ∃ f f' rest, s.frames = f :: rest ∧ s'.frames = f' :: rest ∧ f.add? x symbol = some f' := by
  obtain ⟨inner, bottom⟩ := s
  cases inner with
  | nil =>
    obtain ⟨f, hf, rfl⟩ := Option.map_eq_some_iff.1 h
    exact ⟨bottom, f, [], rfl, rfl, hf⟩
  | cons top rest =>
    obtain ⟨f, hf, rfl⟩ := Option.map_eq_some_iff.1 h
    exact ⟨top, f, rest ++ [bottom], rfl, rfl, hf⟩

/-- A stack is firm when a name is added. -/
theorem firm_of_add? {symbol : Symbol} (h : s.add? x symbol = some s') : s.Firm s' := by
  obtain ⟨f, f', rest, hs, hs', hf⟩ := frames_add? h
  refine firm_of_forall₂ ?_
  rw [hs, hs']
  exact .cons (.add hf) (forall₂_firm_refl rest)

/-- Setting a name changes the frame in which it is found. -/
theorem forall₂_firm_setIn? {l l' : List Frame} {v : Value} (h : setIn? x v l = some l')
    (hx : x = Eval.resultName ∨ ∀ symbol, findIn? x l = some symbol → symbol.kind = .var) :
    List.Forall₂ Frame.Firm l l' := by
  induction l generalizing l' with
  | nil => simp [setIn?] at h
  | cons f rest ih =>
    simp only [setIn?] at h
    split at h
    next new hnew =>
      obtain rfl := Option.some.inj h
      refine .cons (.set hnew (hx.imp_right fun hvar symbol hsymbol => hvar symbol ?_))
        (forall₂_firm_refl rest)
      simp [findIn?, hsymbol]
    next hnone =>
      obtain ⟨rest', hrest, rfl⟩ := Option.map_eq_some_iff.1 h
      refine .cons (.refl f) (ih hrest (hx.imp_right fun hvar symbol hsymbol => hvar symbol ?_))
      simp [findIn?, Frame.set?_eq_none.1 hnone, hsymbol]

/-- A stack is firm when a variable is set, and when the name `return` is. -/
theorem firm_of_set? {v : Value} (h : s.set? x v = some s')
    (hx : x = Eval.resultName ∨ ∀ symbol, s.find? x = some symbol → symbol.kind = .var) :
    s.Firm s' := by
  have hfind : s.find? x = findIn? x s.frames := by rw [find?_eq_head?, findIn?_eq_head?, bound]
  rw [hfind] at hx
  exact firm_of_forall₂ (forall₂_firm_setIn? (frames_set? h) hx)

end Stack

namespace Env

variable {env env' : Env}

/-- The frames below the innermost one. -/
def outer (env : Env) : List Frame := env.stack.frames.tail

theorem outer_add (name : String) (symbol : Symbol) (range : Range) (env : Env) :
    (Eval.left (Eval.add name symbol range env)).outer = env.outer := by
  unfold Eval.add
  cases h : env.stack.add? name symbol with
  | none => rfl
  | some stack =>
    obtain ⟨f, f', rest, hs, hs', -⟩ := Stack.frames_add? h
    simp [Eval.left, outer, hs, hs']

/-- Steps in sequence leave the outer frames if each of them does. -/
theorem outer_bind {α β : Type} {act : Eval α} {k : α → Eval β} {e : Env}
    (h : (Eval.left (act e)).outer = e.outer)
    (hk : ∀ a env', (Eval.left (k a env')).outer = env'.outer) :
    (Eval.left ((act >>= k) e)).outer = e.outer := by
  cases hact : act e with
  | error stop env₁ =>
    rw [hact] at h
    rw [Eval.left_bind_of_error hact]
    exact h
  | ok a env₁ =>
    rw [hact] at h
    rw [Eval.bind_of_ok hact, hk a env₁]
    exact h

theorem outer_bindArgs (params : List Variable) (args : List Value) (env : Env) :
    (Eval.left (Eval.bindArgs params args env)).outer = env.outer := by
  induction params generalizing args env with
  | nil => rfl
  | cons param params ih =>
    cases args with
    | nil => rfl
    | cons arg args => exact outer_bind (outer_add _ _ _ env) fun _ env' => ih args env'

/-- The start of a call leaves the frames of the caller as they are. -/
theorem outer_enter (f : Func) (args : List Value) (env : Env) :
    (Eval.left (Eval.enter f args env)).outer = env.stack.frames :=
  outer_bind (e := env.opened) (outer_add _ _ f.range _) fun _ env' =>
    outer_bindArgs f.params args env'

/-- No change of an evaluation touches a constant or a function in a frame that stays. -/
theorem Change.firm (h : env.Change env') : env.stack.Firm env'.stack := by
  cases h with
  | none => exact Stack.firm_of_suffix (List.suffix_refl _)
  | enter f args =>
    refine Stack.firm_of_suffix ?_
    rw [← outer_enter f args env]
    exact List.tail_suffix _
  | effect h =>
    cases h with
    | push => exact Stack.firm_of_suffix (List.suffix_cons _ _)
    | pop => exact Stack.firm_pop env.stack
    | add h => exact Stack.firm_of_add? h
    | assign hfind hset =>
      refine Stack.firm_of_set? hset (.inr fun symbol hsymbol => ?_)
      rw [hfind, Option.some.injEq] at hsymbol
      rw [← hsymbol]
    | result h => exact Stack.firm_of_set? h (.inl rfl)
    | write | enter | leave => exact Stack.firm_of_suffix (List.suffix_refl _)

/-- A reset keeps the global frame. -/
theorem firm_reset (env : Env) : env.stack.Firm env.reset.stack :=
  Stack.firm_of_suffix' (List.suffix_append env.stack.inner [env.stack.bottom])

theorem frame?_zero (s : Stack) : s.frame? 0 = some s.bottom := by simp [Stack.frame?, Stack.frames]

/-- Along a path the global frame keeps its constants and functions. -/
theorem Path.firm_bottom {l : List Env} (h : env.Path l env') :
    env.stack.bottom.Firm env'.stack.bottom := by
  induction h with
  | stay => exact .refl _
  | step hchange _ ih => exact (hchange.firm 0 _ _ (frame?_zero _) (frame?_zero _)).trans ih

end Env

namespace Eval

variable {α : Type} {env : Env}

/-! ## The function `main` -/

/-- A function that has been declared at the outermost level is in the global frame. -/
theorem get?_of_declare {n : Nat} {f : Func} {env' : Env}
    (h : declare n true (.func f) env = .ok () env') (hinner : env.stack.inner = []) :
    env'.stack.bottom.get? f.ident.name = some ⟨.func, .function (.user f)⟩ := by
  cases n with
  | zero => cases h
  | succ n =>
    have hadd :=
      ok_of_add (h : add f.ident.name ⟨.func, .function (.user f)⟩ f.ident.range env = .ok () env')
    simp only [Stack.add?, hinner] at hadd
    obtain ⟨bottom, hbottom, hstack⟩ := Option.map_eq_some_iff.1 hadd
    rw [← hstack, Frame.get?_add? hbottom, if_pos rfl]

/-- At the outermost level no frame but the global one is left. -/
theorem inner_of_leaves {gains : Bool} {act : Eval α} (h : Leaves gains act) {env' : Env} {a : α}
    (hact : act env = .ok a env') (hinner : env.stack.inner = []) : env'.stack.inner = [] := by
  have hdepth := (h.grown hact).stack.depth_eq
  simpa [Stack.depth, hinner] using hdepth

/-- Declarations that have succeeded leave the constants and functions of the global frame. -/
theorem firm_declareAll {n : Nat} {ds : List Decl} {env' : Env}
    (h : declareAll n ds env = .ok () env') : env.stack.bottom.Firm env'.stack.bottom := by
  induction ds generalizing env with
  | nil =>
    obtain ⟨-, rfl⟩ := EStateM.Result.ok.inj h
    exact .refl _
  | cons d rest ih =>
    obtain ⟨_, env₁, hdeclare, hrest⟩ := ok_of_bind h
    have hpath := Task.path_history n (.declare true d) env
    have hleft : left ((Task.declare true d).perform n env) = env₁ := congrArg left hdeclare
    rw [hleft] at hpath
    exact hpath.firm_bottom.trans (ih hrest)

/-- After declarations that have succeeded, `main` is the function of that name that was
declared. -/
theorem find?_main_of_declareAll {n : Nat} {ds : List Decl} {env' : Env} {f : Func}
    (h : declareAll n ds env = .ok () env') (hinner : env.stack.inner = []) (hmem : .func f ∈ ds)
    (hname : f.ident.name = "main") :
    env'.stack.find? "main" = some ⟨.func, .function (.user f)⟩ := by
  have hinner' := inner_of_leaves (leaves_declareAll n ds) h hinner
  have hget : env'.stack.bottom.get? "main" = some ⟨.func, .function (.user f)⟩ := by
    clear hinner'
    induction ds generalizing env with
    | nil => cases hmem
    | cons d rest ih =>
      obtain ⟨_, env₁, hdeclare, hrest⟩ := ok_of_bind h
      rcases List.mem_cons.1 hmem with rfl | hmem
      · have hbound := get?_of_declare hdeclare hinner
        rw [hname] at hbound
        exact firm_declareAll hrest _ _ (by decide) hbound (by simp)
      · exact ih hrest (inner_of_leaves (leaves_perform n (.declare true d)) hdeclare hinner) hmem
  simp [Stack.find?, Stack.findIn?, hinner', hget]

end Eval

end Rill
