import Rill.Run.Env

/-!
# What the stack keeps

Evaluation opens and drops frames, adds names to the innermost one and replaces values. This
module says what each of these does to two views of a stack : the names of its frames
(`Stack.names`) and the symbols that its frames bind one name to (`Stack.bound`), both from the
innermost frame outwards.

`Stack.Grown` relates a stack to what a finished evaluation leaves : the same frames with the same
names, but for names that the innermost one may have gained; a name that is bound in several frames
has changed its value at most in the innermost of them, which shields the others (`Shields`).
`Stack.Under` relates a stack to one that an evaluation comes to on its way, or that it leaves when
it stops : the frames are still there, below those that were opened and not dropped.
-/

namespace Rill

/-! ## Frames -/

/-- The names of a frame in the order in which they were bound, with their kinds. -/
def Frame.names (f : Frame) : List (String × SymbolKind) := f.entries.map fun e => (e.1, e.2.kind)

namespace Frame

variable {f f' : Frame} {x y : String} {v : Value}

theorem lookup_cons_of_ne {symbol : Symbol} {rest : List (String × Symbol)} (h : x ≠ y) :
    ((y, symbol) :: rest).lookup x = rest.lookup x := by
  simp only [List.lookup_cons, beq_false_of_ne h]

/-- An entry can be set just when there is one of the name. -/
theorem setIn?_eq_none {entries : List (String × Symbol)} :
    setIn? x v entries = none ↔ entries.lookup x = none := by
  induction entries with
  | nil => simp [setIn?]
  | cons e rest ih =>
    obtain ⟨other, symbol⟩ := e
    by_cases h : x = other
    · simp [setIn?, h]
    · simp [setIn?, lookup_cons_of_ne h, beq_false_of_ne h, ih]

/-- To set an entry keeps the names and their kinds. -/
theorem names_setIn? {entries entries' : List (String × Symbol)}
    (h : setIn? x v entries = some entries') :
    (entries'.map fun e => (e.1, e.2.kind)) = entries.map fun e => (e.1, e.2.kind) := by
  induction entries generalizing entries' with
  | nil => simp [setIn?] at h
  | cons e rest ih =>
    obtain ⟨other, symbol⟩ := e
    simp only [setIn?] at h
    split at h
    · obtain rfl := Option.some.inj h
      rfl
    · obtain ⟨rest', hrest, rfl⟩ := Option.map_eq_some_iff.1 h
      simp [ih hrest]

/-- To set an entry changes the value of its name and of no other. -/
theorem lookup_setIn? {entries entries' : List (String × Symbol)}
    (h : setIn? x v entries = some entries') :
    entries'.lookup y =
      if y = x then (entries.lookup y).map ({ · with value := v }) else entries.lookup y := by
  induction entries generalizing entries' with
  | nil => simp [setIn?] at h
  | cons e rest ih =>
    obtain ⟨other, symbol⟩ := e
    simp only [setIn?] at h
    split at h
    next heq =>
      obtain rfl := Option.some.inj h
      obtain rfl : x = other := by simpa using heq
      by_cases hy : y = x
      · simp [hy]
      · simp [hy, lookup_cons_of_ne hy]
    next hne =>
      obtain ⟨rest', hrest, rfl⟩ := Option.map_eq_some_iff.1 h
      have hrest := ih hrest
      by_cases hy : y = other
      · obtain rfl := hy
        have hyx : y ≠ x := fun hyx => hne (by simp [hyx])
        simp [hyx]
      · simpa only [lookup_cons_of_ne hy] using hrest

theorem set?_eq_none : f.set? x v = none ↔ f.get? x = none := by
  simp [set?, get?, setIn?_eq_none]

theorem names_set? (h : f.set? x v = some f') : f'.names = f.names := by
  obtain ⟨entries, hentries, rfl⟩ := Option.map_eq_some_iff.1 h
  exact names_setIn? hentries

/-- To set a name changes the value of that name and of no other. -/
theorem get?_set? (h : f.set? x v = some f') :
    f'.get? y = if y = x then (f.get? y).map ({ · with value := v }) else f.get? y := by
  obtain ⟨entries, hentries, rfl⟩ := Option.map_eq_some_iff.1 h
  exact lookup_setIn? hentries

/-- A new name comes after the others. -/
theorem names_add? {symbol : Symbol} (h : f.add? x symbol = some f') :
    f'.names = f.names ++ [(x, symbol.kind)] := by
  simp only [add?] at h
  split at h
  · simp at h
  · obtain rfl := Option.some.inj h
    simp [names]

/-- Only a name that is not bound can be added. -/
theorem get?_of_add? {symbol : Symbol} (h : f.add? x symbol = some f') : f.get? x = none := by
  simp only [add?] at h
  split at h
  next => simp at h
  next hnot => simpa [contains] using hnot

/-- To add a name binds that name and no other. -/
theorem get?_add? {symbol : Symbol} (h : f.add? x symbol = some f') :
    f'.get? y = if y = x then some symbol else f.get? y := by
  have hfree := get?_of_add? h
  simp only [add?] at h
  split at h
  · simp at h
  · obtain rfl := Option.some.inj h
    simp only [get?, List.lookup_append] at hfree ⊢
    by_cases hy : y = x
    · simp [hy, hfree]
    · simp [hy, lookup_cons_of_ne hy]

/-- Whether a name is bound in a frame can be read off the names of the frame. -/
theorem isSome_get? : (f.get? x).isSome = f.names.any (·.1 == x) := by
  simp only [get?, names]
  induction f.entries with
  | nil => rfl
  | cons e rest ih =>
    obtain ⟨other, symbol⟩ := e
    by_cases h : x = other
    · simp [h]
    · rw [lookup_cons_of_ne h, ih]
      simp [beq_false_of_ne (Ne.symm h)]

end Frame

/-! ## Symbols of one name -/

/-- All symbols but the first are still there, below those that have come on top of them. -/
def Shields (l l' : List Symbol) : Prop := l.length ≤ l'.length ∧ l.tail <:+ l'

namespace Shields

variable {l l' l'' : List Symbol}

theorem refl (l : List Symbol) : Shields l l := ⟨Nat.le_refl _, List.tail_suffix l⟩

theorem of_suffix (h : l <:+ l') : Shields l l' := ⟨h.length_le, (List.tail_suffix l).trans h⟩

/-- Symbols that have been covered twice are still there. -/
theorem trans (h : Shields l l') (h' : Shields l' l'') : Shields l l'' := by
  refine ⟨Nat.le_trans h.1 h'.1, ?_⟩
  cases l with
  | nil => exact List.nil_suffix
  | cons a rest =>
    -- `l'` is longer than `rest`, so `rest` is a suffix also of its tail
    cases l' with
    | nil => exact absurd h.1 (by simp)
    | cons a' rest' =>
      have htail : rest <:+ rest' := by
        refine List.suffix_of_suffix_length_le h.2 (List.suffix_cons a' rest') ?_
        simpa using h.1
      exact htail.trans h'.2

/-- What is left of shielded symbols when those on top are dropped. -/
theorem of_dropped (h : Shields l l') (hdrop : l'' <:+ l') (hlength : l.length ≤ l''.length) :
    Shields l l'' := by
  refine ⟨hlength, List.suffix_of_suffix_length_le h.2 hdrop ?_⟩
  simpa using Nat.le_trans (Nat.sub_le _ 1) hlength

/-- The first symbol has a successor in its place, which others may hide. -/
theorem eq_append {a : Symbol} (h : Shields (a :: l) l') :
    ∃ shadows own, l' = shadows ++ own :: l := by
  obtain ⟨above, rfl⟩ := h.2
  rcases List.eq_nil_or_concat above with rfl | ⟨shadows, own, rfl⟩
  · exact absurd h.1 (by simp)
  · exact ⟨shadows, own, by simp⟩

/-- If no symbol has come on top, only the first can have changed. -/
theorem eq_cons {a : Symbol} (h : Shields (a :: l) l') (hlength : l'.length = l.length + 1) :
    ∃ own, l' = own :: l := by
  obtain ⟨shadows, own, rfl⟩ := h.eq_append
  have hnone : shadows = [] := by
    rw [List.length_append] at hlength
    exact List.eq_nil_of_length_eq_zero (by simpa using hlength)
  exact ⟨own, by rw [hnone, List.nil_append]⟩

end Shields

namespace Stack

variable {s s' s'' : Stack} {x y : String} {v : Value}

/-- The names of each frame. -/
def names (s : Stack) : List (List (String × SymbolKind)) := s.frames.map Frame.names

/-- The symbols that the frames bind a name to. -/
def bound (s : Stack) (x : String) : List Symbol := s.frames.filterMap (·.get? x)

theorem frames_ne_nil (s : Stack) : s.frames ≠ [] := by simp [frames]

theorem length_names (s : Stack) : s.names.length = s.depth := by simp [names, frames, depth]

/-- A name is found in the first frame that binds it. -/
theorem findIn?_eq_head? (frames : List Frame) :
    findIn? x frames = (frames.filterMap (·.get? x)).head? := by
  induction frames with
  | nil => rfl
  | cons f rest ih =>
    cases h : f.get? x <;> simp [findIn?, h, ih]

/-- A name is looked up in the innermost frame that binds it. -/
theorem find?_eq_head? (s : Stack) (x : String) : s.find? x = (s.bound x).head? := by
  simp only [find?, findIn?_eq_head?, bound, frames, List.filterMap_append, List.head?_append]
  cases h : s.bottom.get? x <;> simp [h]

/-- In how many frames a name is bound can be read off the names of the frames. -/
theorem length_bound (s : Stack) (x : String) :
    (s.bound x).length = s.names.countP (·.any (·.1 == x)) := by
  simp only [bound, names, List.countP_map]
  induction s.frames with
  | nil => rfl
  | cons f rest ih =>
    have hf := f.isSome_get? (x := x)
    cases h : f.get? x with
    | none =>
      rw [h] at hf
      simp [h, ih, ← hf]
    | some symbol =>
      rw [h] at hf
      simp [h, ih, ← hf]

/-! ## Opening, dropping, adding, setting -/

theorem names_push (s : Stack) : s.push.names = [] :: s.names := rfl

/-- To pop a frame leaves the names of the others. -/
theorem names_pop_of_cons {top : List (String × SymbolKind)}
    {rest : List (List (String × SymbolKind))} (h : s.names = top :: rest) (hrest : rest ≠ []) :
    s.pop.names = rest := by
  obtain ⟨inner, bottom⟩ := s
  cases inner with
  | nil => simp_all [names, frames]
  | cons f inner => simpa [names, frames, pop] using congrArg List.tail h

/-- To pop a frame uncovers symbols and changes none. -/
theorem bound_pop_suffix (s : Stack) (x : String) : s.pop.bound x <:+ s.bound x := by
  obtain ⟨inner, bottom⟩ := s
  cases inner with
  | nil => exact List.suffix_refl _
  | cons f inner =>
    simp only [bound, frames, pop, List.tail_cons, List.cons_append]
    exact (List.suffix_cons f _).filterMap _

/-- A name is added to the innermost frame. -/
theorem names_add? {symbol : Symbol} (h : s.add? x symbol = some s') :
    ∃ top rest, s.names = top :: rest ∧ s'.names = (top ++ [(x, symbol.kind)]) :: rest := by
  obtain ⟨inner, bottom⟩ := s
  cases inner with
  | nil =>
    obtain ⟨f, hf, rfl⟩ := Option.map_eq_some_iff.1 h
    exact ⟨_, _, rfl, by simp [names, frames, Frame.names_add? hf]⟩
  | cons top rest =>
    obtain ⟨f, hf, rfl⟩ := Option.map_eq_some_iff.1 h
    exact ⟨_, _, rfl, by simp [names, frames, Frame.names_add? hf]⟩

/-- A name that is added hides its other bindings. -/
theorem bound_add? {symbol : Symbol} (h : s.add? x symbol = some s') :
    s'.bound y = if y = x then symbol :: s.bound y else s.bound y := by
  have haux : ∀ (f f' : Frame) (rest : List Frame), f.add? x symbol = some f' →
      (f' :: rest).filterMap (·.get? y) =
        if y = x then symbol :: (f :: rest).filterMap (·.get? y)
        else (f :: rest).filterMap (·.get? y) := by
    intro f f' rest hf
    have hget := Frame.get?_add? (y := y) hf
    by_cases hy : y = x
    · subst hy
      simp [hget, Frame.get?_of_add? hf]
    · simp [hget, hy, List.filterMap_cons]
  obtain ⟨inner, bottom⟩ := s
  cases inner with
  | nil =>
    obtain ⟨f, hf, rfl⟩ := Option.map_eq_some_iff.1 h
    exact haux bottom f [] hf
  | cons top rest =>
    obtain ⟨f, hf, rfl⟩ := Option.map_eq_some_iff.1 h
    exact haux top f (rest ++ [bottom]) hf

/-- To set a name keeps the names of all frames. -/
theorem names_setIn? {frames frames' : List Frame} (h : setIn? x v frames = some frames') :
    frames'.map Frame.names = frames.map Frame.names := by
  induction frames generalizing frames' with
  | nil => simp [setIn?] at h
  | cons f rest ih =>
    simp only [setIn?] at h
    split at h
    next new hnew =>
      obtain rfl := Option.some.inj h
      simp [Frame.names_set? hnew]
    next =>
      obtain ⟨rest', hrest, rfl⟩ := Option.map_eq_some_iff.1 h
      simp [ih hrest]

/-- A name can be set just when some frame binds it. -/
theorem setIn?_eq_none {frames : List Frame} :
    setIn? x v frames = none ↔ frames.filterMap (·.get? x) = [] := by
  induction frames with
  | nil => simp [setIn?]
  | cons f rest ih =>
    simp only [setIn?]
    split
    next new hnew =>
      have hget : f.get? x ≠ none := fun hnone => by simp [Frame.set?_eq_none.2 hnone] at hnew
      obtain ⟨symbol, hsymbol⟩ := Option.ne_none_iff_exists'.1 hget
      simp [hsymbol]
    next hnone => simp [Frame.set?_eq_none.1 hnone, ih]

/-- The first of some symbols with its value replaced. -/
def setHead (v : Value) : List Symbol → List Symbol
  | [] => []
  | symbol :: rest => { symbol with value := v } :: rest

/-- A name is set in the innermost frame that binds it. -/
theorem bound_setIn? {frames frames' : List Frame} (h : setIn? x v frames = some frames') :
    frames'.filterMap (·.get? y) =
      if y = x then setHead v (frames.filterMap (·.get? y)) else frames.filterMap (·.get? y) := by
  induction frames generalizing frames' with
  | nil => simp [setIn?] at h
  | cons f rest ih =>
    simp only [setIn?] at h
    split at h
    next new hnew =>
      obtain rfl := Option.some.inj h
      have hget := Frame.get?_set? (y := y) hnew
      by_cases hy : y = x
      · subst hy
        have hbound : f.get? y ≠ none := fun hnone => by simp [Frame.set?_eq_none.2 hnone] at hnew
        obtain ⟨symbol, hsymbol⟩ := Option.ne_none_iff_exists'.1 hbound
        simp [hget, hsymbol, setHead]
      · simp [hget, hy, List.filterMap_cons]
    next hnone =>
      obtain ⟨rest', hrest, rfl⟩ := Option.map_eq_some_iff.1 h
      have hfree := Frame.set?_eq_none.1 hnone
      have hrest := ih hrest
      by_cases hy : y = x
      · subst hy
        simpa [hfree] using hrest
      · simp only [hy, if_false] at hrest ⊢
        simp [List.filterMap_cons, hrest]

/-- The bottom frame is set only if no other frame binds the name. -/
theorem setIn?_concat (inner : List Frame) (bottom : Frame) :
    setIn? x v (inner ++ [bottom]) =
      match setIn? x v inner with
      | some inner' => some (inner' ++ [bottom])
      | none => (bottom.set? x v).map fun f => inner ++ [f] := by
  induction inner with
  | nil => cases h : bottom.set? x v <;> simp [setIn?, h]
  | cons f rest ih =>
    simp only [List.cons_append, setIn?, ih]
    cases f.set? x v with
    | some new => rfl
    | none =>
      cases setIn? x v rest with
      | some rest' => rfl
      | none => cases bottom.set? x v <;> rfl

theorem frames_set? (h : s.set? x v = some s') : setIn? x v s.frames = some s'.frames := by
  rw [frames, setIn?_concat]
  simp only [set?] at h
  cases hinner : setIn? x v s.inner with
  | some inner' =>
    rw [hinner] at h
    obtain rfl := Option.some.inj h
    rfl
  | none =>
    rw [hinner] at h
    obtain ⟨f, hf, rfl⟩ := Option.map_eq_some_iff.1 h
    simp [hf, frames]

theorem names_set? (h : s.set? x v = some s') : s'.names = s.names := names_setIn? (frames_set? h)

/-- A name that cannot be set is bound nowhere. -/
theorem bound_of_set?_eq_none (h : s.set? x v = none) : s.bound x = [] := by
  have hframes : setIn? x v s.frames = none := by
    rw [frames, setIn?_concat]
    simp only [set?] at h
    cases hinner : setIn? x v s.inner with
    | some inner' => simp [hinner] at h
    | none => simpa [hinner] using h
  exact setIn?_eq_none.1 hframes

/-- Setting a name replaces the value of its innermost binding. -/
theorem bound_set? (h : s.set? x v = some s') :
    s'.bound y = if y = x then setHead v (s.bound y) else s.bound y := bound_setIn? (frames_set? h)

/-! ## What evaluation leaves -/

/-- The same frames, but for names that the innermost one has gained, if `gains` allows any. -/
structure Grown (gains : Bool) (s s' : Stack) : Prop where
  names : ∃ top rest added,
    s.names = top :: rest ∧ s'.names = (top ++ added) :: rest ∧ (gains = false → added = [])
  bound (x : String) : Shields (s.bound x) (s'.bound x)

/-- The same frames below others, but for names that the innermost one has gained. -/
structure Under (s s' : Stack) : Prop where
  names : ∃ top rest pushed added, s.names = top :: rest ∧
    s'.names = pushed ++ (top ++ added) :: rest
  bound (x : String) : Shields (s.bound x) (s'.bound x)

theorem exists_names_eq_cons (s : Stack) : ∃ top rest, s.names = top :: rest :=
  List.exists_cons_of_ne_nil fun h => s.frames_ne_nil (List.map_eq_nil_iff.1 h)

namespace Grown

variable {gains : Bool}

/-- Frames with the same names have grown if the symbols are shielded. -/
theorem of_names_eq (h : s'.names = s.names) (hbound : ∀ x, Shields (s.bound x) (s'.bound x)) :
    Grown gains s s' := by
  obtain ⟨top, rest, hs⟩ := s.exists_names_eq_cons
  exact ⟨⟨top, rest, [], hs, by rw [h, hs, List.append_nil], fun _ => rfl⟩, hbound⟩

theorem refl (s : Stack) : Grown gains s s := of_names_eq rfl fun _ => .refl _

/-- Frames that have grown twice have grown. -/
theorem trans (h : Grown gains s s') (h' : Grown gains s' s'') : Grown gains s s'' := by
  obtain ⟨top, rest, added, hs, hs', hgains⟩ := h.names
  obtain ⟨top', rest', added', hs₁, hs'', hgains'⟩ := h'.names
  obtain ⟨rfl, rfl⟩ := List.cons.inj (hs'.symm.trans hs₁)
  refine ⟨⟨top, rest, added ++ added', hs, by rw [hs'', List.append_assoc], ?_⟩, fun x => ?_⟩
  · intro hfalse
    rw [hgains hfalse, hgains' hfalse, List.append_nil]
  · exact (h.bound x).trans (h'.bound x)

/-- A stack that has gained nothing has the names that it had. -/
theorem names_eq (h : Grown false s s') : s'.names = s.names := by
  obtain ⟨top, rest, added, hs, hs', hgains⟩ := h.names
  rw [hs', hs, hgains rfl, List.append_nil]

theorem mono (h : Grown false s s') : Grown gains s s' := of_names_eq h.names_eq h.bound

theorem depth_eq (h : Grown gains s s') : s'.depth = s.depth := by
  obtain ⟨top, rest, added, hs, hs', -⟩ := h.names
  rw [← length_names, ← length_names, hs, hs', List.length_cons, List.length_cons]

/-- A frame that has bound a name does not bind it again. -/
theorem length_bound_eq {top : List (String × SymbolKind)}
    {rest : List (List (String × SymbolKind))} (h : Grown gains s s') (hs : s.names = top :: rest)
    (hx : top.any (·.1 == x)) :
    (s'.bound x).length = (s.bound x).length := by
  obtain ⟨top', rest', added, hs₁, hs', -⟩ := h.names
  obtain ⟨rfl, rfl⟩ := List.cons.inj (hs.symm.trans hs₁)
  simp [Stack.length_bound, hs, hs', List.any_append, hx]

/-- A stack grows if a name is set. -/
theorem set (s : Stack) (x : String) (v : Value) : Grown gains s ((s.set? x v).getD s) := by
  cases h : s.set? x v with
  | none => exact refl s
  | some s' =>
    refine of_names_eq (names_set? h) fun y => ?_
    rw [Option.getD_some, bound_set? h]
    split
    · cases s.bound y with
      | nil => exact .refl _
      | cons symbol rest => exact ⟨Nat.le_refl _, List.suffix_cons _ rest⟩
    · exact .refl _

/-- A stack grows if a name is added, where that is allowed. -/
theorem add {symbol : Symbol} (h : s.add? x symbol = some s') : Grown true s s' := by
  obtain ⟨top, rest, hs, hs'⟩ := names_add? h
  refine ⟨⟨top, rest, _, hs, hs', nofun⟩, fun y => ?_⟩
  rw [bound_add? h]
  split
  · exact .of_suffix (List.suffix_cons symbol _)
  · exact .refl _

/-- What was done in a frame of its own leaves the others as they were. -/
theorem pop (h : Grown gains s.push s') : Grown false s s'.pop := by
  obtain ⟨top, rest, added, hs, hs', -⟩ := h.names
  obtain ⟨rfl, rfl⟩ := List.cons.inj hs
  have hrest : s.names ≠ [] := fun hnil => s.frames_ne_nil (List.map_eq_nil_iff.1 hnil)
  have hnames : s'.pop.names = s.names := names_pop_of_cons hs' hrest
  refine of_names_eq hnames fun x => ?_
  have hlength : (s.bound x).length = (s'.pop.bound x).length := by
    rw [length_bound, length_bound, hnames]
  exact (h.bound x).of_dropped (s'.bound_pop_suffix x) (Nat.le_of_eq hlength)

/-- A stack that has grown has the same frames at its bottom. -/
theorem under (h : Grown gains s s') : Under s s' := by
  obtain ⟨top, rest, added, hs, hs', -⟩ := h.names
  exact ⟨⟨top, rest, [], added, hs, hs'⟩, h.bound⟩

end Grown

namespace Under

theorem refl (s : Stack) : Under s s := (@Grown.refl false s).under

theorem trans (h : Under s s') (h' : Under s' s'') : Under s s'' := by
  refine ⟨?_, fun x => (h.bound x).trans (h'.bound x)⟩
  obtain ⟨top, rest, pushed, added, hs, hs'⟩ := h.names
  obtain ⟨top', rest', pushed', added', hs₁, hs''⟩ := h'.names
  rw [hs'] at hs₁
  cases pushed with
  | nil =>
    obtain ⟨rfl, rfl⟩ := List.cons.inj hs₁
    exact ⟨top, rest, pushed', added ++ added', hs, by rw [hs'', List.append_assoc]⟩
  | cons f pushed =>
    obtain ⟨rfl, rfl⟩ := List.cons.inj hs₁
    exact ⟨top, rest, pushed' ++ (f ++ added') :: pushed, added,
      hs, by rw [hs'', List.append_assoc]; rfl⟩

theorem push (s : Stack) : Under s s.push := by
  obtain ⟨top, rest, hs⟩ := s.exists_names_eq_cons
  exact ⟨⟨top, rest, [[]], [], hs, by rw [names_push, hs, List.append_nil]; rfl⟩, fun _ => .refl _⟩

/-- The global frame keeps its names. -/
theorem bottom (h : Under s s') : s.bottom.names <+: s'.bottom.names := by
  have hlast : ∀ s : Stack, s.names.getLast? = some s.bottom.names := fun s => by
    simp [Stack.names, frames]
  obtain ⟨top, rest, pushed, added, hs, hs'⟩ := h.names
  have hb := hlast s
  have hb' := hlast s'
  rw [hs] at hb
  rw [hs', List.getLast?_append] at hb'
  cases rest with
  | nil =>
    obtain rfl : top = s.bottom.names := by simpa using hb
    obtain hb' : s.bottom.names ++ added = s'.bottom.names := by simpa using hb'
    exact ⟨added, hb'⟩
  | cons f rest =>
    rw [List.getLast?_cons_cons] at hb hb'
    rw [hb, Option.some_or] at hb'
    have hsame : s.bottom.names = s'.bottom.names := Option.some.inj hb'
    exact hsame ▸ List.prefix_refl s.bottom.names

end Under

end Stack

end Rill
