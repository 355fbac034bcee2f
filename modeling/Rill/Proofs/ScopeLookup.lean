import Rill.Proofs.Operations

/-!
# Lookups after any history

A tree of scopes is made by operations that open scopes, enter declarations and remove them. What a
lookup gives is said here from the operations alone. The operations `since` a scope was opened tell
which names were ever added to it (`EverAdded`) and which declarations are left (`bindingsOf`) : an
addition goes to the end, and a removal takes out the first binding of that declaration.

Scopes are numbered in the order in which they are opened, so a scope lies inside one with a smaller
number (`Nested`) and every walk outward ends (`lineage_ancestors`). A scope to which a name was
ever added decides a lookup that meets it, also if nothing is left there (`lookup_run`). An
operation on a scope that the walk does not meet changes nothing (`find?_apply`).
-/

namespace Rill

/-! ## What is left in a scope -/

namespace Scope

variable {s : Scope} {name : String} {decl : DeclId}

/-- The names and declarations that were not removed, in the order in which they were entered. -/
def bindings (s : Scope) : List (String × DeclId) :=
  s.entries.filterMap fun e => e.decl.map (e.name, ·)

/-- A name has an entry, whether or not its declaration was removed. -/
def Names (s : Scope) (name : String) : Prop :=
  ∃ e ∈ s.entries, e.name = name

/-- The first declaration among the entries of a name is that of the first binding of the name. -/
theorem findSome?_decl_eq (name : String) (es : List Entry) :
    (es.filter (·.name == name)).findSome? (·.decl) =
      ((es.filterMap fun e => e.decl.map (e.name, ·)).find? (·.1 = name)).map Prod.snd := by
  induction es with
  | nil => rfl
  | cons e es ih =>
    obtain ⟨n, d⟩ := e
    by_cases hn : n = name
    · cases d with
      | none => simpa [hn] using ih
      | some d => simp [hn]
    · cases d with
      | none => simpa [hn] using ih
      | some d => simpa [hn] using ih

/-- A scope says nothing about a name that has no entry. -/
theorem lookup_of_not_names (h : ¬s.Names name) : s.lookup name = none := by
  have hnone : s.entries.filter (·.name == name) = [] :=
    List.filter_eq_nil_iff.2 fun e he hname => h ⟨e, he, by simpa using hname⟩
  rw [lookup, hnone]

/-- A scope gives the first binding that is left of a name that has an entry. -/
theorem lookup_of_names (h : s.Names name) :
    s.lookup name = some ((s.bindings.find? (·.1 = name)).map Prod.snd) := by
  obtain ⟨e, he, rfl⟩ := h
  have hmem : e ∈ s.entries.filter (·.name == e.name) := List.mem_filter.2 ⟨he, by simp⟩
  rw [lookup, bindings, ← findSome?_decl_eq]
  split
  · rename_i hnil
    rw [hnil] at hmem
    cases hmem
  · rfl

/-- A declaration that is entered comes after the others. -/
theorem bindings_add (s : Scope) (name : String) (decl : DeclId) :
    (s.add name decl).bindings = s.bindings ++ [(name, decl)] := by
  simp [bindings, add]

theorem names_add {new : String} : (s.add new decl).Names name ↔ s.Names name ∨ new = name := by
  simp [Names, add, or_and_right, exists_or]

/-- Removing takes out the first binding of the declaration. -/
theorem bindings_remove (s : Scope) (decl : DeclId) :
    (s.remove decl).bindings = s.bindings.eraseP (·.2 = decl) := by
  rw [bindings, bindings, remove]
  induction s.entries with
  | nil => rfl
  | cons e es ih =>
    obtain ⟨n, d⟩ := e
    cases d with
    | none => simpa [eraseFirst] using ih
    | some d =>
      by_cases hd : d = decl
      · simp [eraseFirst, hd]
      · simpa [eraseFirst, hd] using ih

/-- Removing keeps the names. -/
theorem names_remove : (s.remove decl).Names name ↔ s.Names name := by
  have hnames : (eraseFirst decl s.entries).map Entry.name = s.entries.map Entry.name := by
    induction s.entries with
    | nil => rfl
    | cons e es ih =>
      rw [eraseFirst]
      split
      · rfl
      · rw [List.map_cons, ih, List.map_cons]
  have hmem : ∀ s' : Scope, s'.Names name ↔ name ∈ s'.entries.map Entry.name :=
    fun _ => List.mem_map.symm
  rw [hmem, hmem, remove, hnames]

/-- The first entry of a declaration loses it, and all other entries stay. -/
theorem eraseFirst_of_split {front back : List Entry} {e : Entry}
    (hfront : ∀ x ∈ front, x.decl ≠ some decl) (he : e.decl = some decl) :
    eraseFirst decl (front ++ e :: back) = front ++ { e with decl := none } :: back := by
  induction front with
  | nil => rw [List.nil_append, eraseFirst, if_pos he, List.nil_append]
  | cons x front ih =>
    obtain ⟨hx, hfront⟩ := List.forall_mem_cons.1 hfront
    rw [List.cons_append, eraseFirst, if_neg hx, ih hfront, List.cons_append]

/-- To erase a declaration that is not there changes nothing. -/
theorem eraseFirst_of_forall_ne {es : List Entry} (h : ∀ x ∈ es, x.decl ≠ some decl) :
    eraseFirst decl es = es := by
  induction es with
  | nil => rfl
  | cons x es ih =>
    obtain ⟨hx, hes⟩ := List.forall_mem_cons.1 h
    rw [eraseFirst, if_neg hx, ih hes]

end Scope

namespace ScopeTree

/-! ## Operations and histories -/

/-- What can be done to a tree of scopes. -/
inductive Operation where
  | push (kind : ScopeKind) (parent : ScopeId) (owner : Option DeclId)
  | add (scope : ScopeId) (name : String) (decl : DeclId)
  | remove (scope : ScopeId) (decl : DeclId)
deriving DecidableEq, Repr

namespace Operation

/-- The tree that an operation makes of another. -/
def apply (t : ScopeTree) : Operation → ScopeTree
  | .push kind parent owner => (t.push kind parent owner).2
  | .add scope name decl => t.add scope name decl
  | .remove scope decl => (t.remove scope decl).2

/-- A scope is opened inside one that exists. -/
def Fits (t : ScopeTree) : Operation → Prop
  | .push _ parent _ => parent.index < t.size
  | .add .. | .remove .. => True

instance (t : ScopeTree) : (op : Operation) → Decidable (op.Fits t)
  | .push _ parent _ => inferInstanceAs (Decidable (parent.index < t.size))
  | .add .. | .remove .. => isTrue trivial

/-- The scope whose entries an operation changes. -/
def scope? : Operation → Option ScopeId
  | .push .. => none
  | .add scope .. | .remove scope _ => some scope

/-- What an operation makes of a scope. -/
def onScope (k : ScopeId) (s : Scope) : Operation → Scope
  | .push .. => s
  | .add scope name decl => if scope = k then s.add name decl else s
  | .remove scope decl => if scope = k then s.remove decl else s

/-- What an operation makes of the bindings of a scope. -/
def onBindings (k : ScopeId) (bs : List (String × DeclId)) : Operation → List (String × DeclId)
  | .push .. => bs
  | .add scope name decl => if scope = k then bs ++ [(name, decl)] else bs
  | .remove scope decl => if scope = k then bs.eraseP (·.2 = decl) else bs

end Operation

/-- Does operations one after another. -/
def run (t : ScopeTree) (ops : List Operation) : ScopeTree := ops.foldl Operation.apply t

/-- Every scope that the operations open is opened inside one that exists by then. -/
def Fitting : ScopeTree → List Operation → Prop
  | _, [] => True
  | t, op :: ops => op.Fits t ∧ Fitting (op.apply t) ops

instance decidableFitting : (t : ScopeTree) → (ops : List Operation) → Decidable (t.Fitting ops)
  | _, [] => isTrue trivial
  | t, op :: ops => @instDecidableAnd _ _ _ (decidableFitting (op.apply t) ops)

/-- The operations after the one that opened the scope with a number. The global scope is
there from the start. -/
def since : Nat → List Operation → List Operation
  | 0, ops => ops
  | _ + 1, [] => []
  | n + 1, .push .. :: ops => since n ops
  | n + 1, .add .. :: ops | n + 1, .remove .. :: ops => since (n + 1) ops

/-- A name was added to a scope at some time since the scope was opened. -/
def EverAdded (ops : List Operation) (k : ScopeId) (name : String) : Prop :=
  ∃ decl, .add k name decl ∈ since k.index ops

/-- The names and declarations that operations leave in a scope, in the order in which
they were added. -/
def bindingsOf (ops : List Operation) (k : ScopeId) : List (String × DeclId) :=
  (since k.index ops).foldl (Operation.onBindings k) []

/-! ## One operation -/

section

variable {t : ScopeTree} {k c : ScopeId} {s : Scope} {op : Operation} {ops : List Operation}
  {name : String}

/-- Trees with the same scopes are equal. -/
theorem ext_get? {t' : ScopeTree} (h : ∀ k, t'.get? k = t.get? k) : t' = t :=
  congrArg ScopeTree.mk (Array.ext_getElem? fun i => h ⟨i⟩)

/-- A change of one scope leaves the others. -/
theorem get?_modify (f : Scope → Scope) (id : ScopeId) :
    ScopeTree.get? ⟨t.scopes.modify id.index f⟩ k =
      if id = k then (t.get? k).map f else t.get? k := by
  obtain ⟨index⟩ := k
  obtain ⟨i⟩ := id
  simp only [get?, Array.getElem?_modify, ScopeId.mk.injEq]

theorem remove_snd (id : ScopeId) (decl : DeclId) :
    (t.remove id decl).2 = ⟨t.scopes.modify id.index (·.remove decl)⟩ := by
  rw [remove]
  split
  · rename_i hnone
    refine (ext_get? fun k => ?_).symm
    rw [get?_modify]
    split
    · rename_i hk
      rw [← hk, hnone, Option.map_none]
    · rfl
  · rfl

/-- A declaration is removed from its scope and from no other. -/
theorem get?_remove (id : ScopeId) (decl : DeclId) : (t.remove id decl).2.get? k =
    if id = k then (t.get? k).map (·.remove decl) else t.get? k := by
  rw [remove_snd, get?_modify]

theorem size_remove (id : ScopeId) (decl : DeclId) : (t.remove id decl).2.size = t.size := by
  simp [remove_snd, size]

/-- An operation does to a scope that exists what it does to scopes. -/
theorem get?_apply (h : t.get? k = some s) : (op.apply t).get? k = some (op.onScope k s) := by
  cases op with
  | push kind parent owner =>
    have hne : k.index ≠ t.size := Nat.ne_of_lt (index_lt_of_get? h)
    rw [Operation.apply, get?_push, if_neg hne, h]
    rfl
  | add scope name decl =>
    rw [Operation.apply, get?_add, Operation.onScope, h]
    split <;> rfl
  | remove scope decl =>
    rw [Operation.apply, get?_remove, Operation.onScope, h]
    split <;> rfl

/-- No operation moves a scope. -/
theorem parent_onScope (k : ScopeId) (s : Scope) (op : Operation) :
    (op.onScope k s).parent = s.parent := by
  cases op with
  | push kind parent owner => rfl
  | add scope name decl =>
    rw [Operation.onScope]
    split <;> rfl
  | remove scope decl =>
    rw [Operation.onScope]
    split <;> rfl

/-- What an operation does to a scope shows in its bindings. -/
theorem bindings_onScope (k : ScopeId) (s : Scope) (op : Operation) :
    (op.onScope k s).bindings = op.onBindings k s.bindings := by
  cases op with
  | push kind parent owner => rfl
  | add scope name decl =>
    rw [Operation.onScope, Operation.onBindings]
    split
    · exact s.bindings_add name decl
    · rfl
  | remove scope decl =>
    rw [Operation.onScope, Operation.onBindings]
    split
    · exact s.bindings_remove decl
    · rfl

/-- A name gets an entry by being added, and keeps it. -/
theorem names_onScope :
    (op.onScope k s).Names name ↔ s.Names name ∨ ∃ decl, op = .add k name decl := by
  cases op with
  | push kind parent owner => simp [Operation.onScope]
  | add scope new decl =>
    rw [Operation.onScope]
    split
    · rename_i hscope
      simp [Scope.names_add, hscope]
    · rename_i hscope
      simp [hscope]
  | remove scope decl =>
    rw [Operation.onScope]
    split
    · simp [Scope.names_remove]
    · simp

/-- An operation on another scope leaves a scope as it is. -/
theorem onScope_of_ne (h : op.scope? ≠ some k) : op.onScope k s = s := by
  cases op with
  | push kind parent owner => rfl
  | add scope name decl => exact if_neg fun hk => h (congrArg some hk)
  | remove scope decl => exact if_neg fun hk => h (congrArg some hk)

/-! ## Many operations -/

/-- Operations do to a scope that exists what each does to scopes. -/
theorem get?_run (h : t.get? k = some s) :
    (t.run ops).get? k = some (ops.foldl (Operation.onScope k) s) := by
  induction ops generalizing t s with
  | nil => exact h
  | cons op ops ih => exact ih (get?_apply h)

theorem parent_foldl (k : ScopeId) (s : Scope) (ops : List Operation) :
    (ops.foldl (Operation.onScope k) s).parent = s.parent := by
  induction ops generalizing s with
  | nil => rfl
  | cons op ops ih => exact (ih _).trans (parent_onScope k s op)

/-- What operations do to a scope, they do to its bindings one by one. -/
theorem bindings_foldl (k : ScopeId) (s : Scope) (ops : List Operation) :
    (ops.foldl (Operation.onScope k) s).bindings =
      ops.foldl (Operation.onBindings k) s.bindings := by
  induction ops generalizing s with
  | nil => rfl
  | cons op ops ih => rw [List.foldl_cons, List.foldl_cons, ih, bindings_onScope]

/-- A scope names what it named at first and what was added to it. -/
theorem names_foldl : (ops.foldl (Operation.onScope k) s).Names name ↔
    s.Names name ∨ ∃ decl, .add k name decl ∈ ops := by
  induction ops generalizing s with
  | nil => simp
  | cons op ops ih =>
    rw [List.foldl_cons, ih, names_onScope, or_assoc]
    simp only [List.mem_cons, exists_or, eq_comm]

/-- A scope that operations open has a smaller parent and starts without entries. What is
done since then makes it. -/
theorem exists_opened {n : Nat} (hfit : t.Fitting ops) (hk : k.index = t.size + n)
    (h : (t.run ops).get? k = some s) :
    ∃ s₀ : Scope, s₀.entries = [] ∧ (∀ p, s₀.parent = some p → p.index < k.index) ∧
      s = (since (n + 1) ops).foldl (Operation.onScope k) s₀ := by
  induction ops generalizing t n with
  | nil => exact absurd (index_lt_of_get? h) (by rw [run, List.foldl_nil]; omega)
  | cons op ops ih =>
    obtain ⟨hop, hfit⟩ := hfit
    have hrun : t.run (op :: ops) = (op.apply t).run ops := rfl
    rw [hrun] at h
    cases op with
    | push kind parent owner =>
      have hsize : (Operation.apply t (.push kind parent owner)).size = t.size + 1 :=
        size_push kind parent owner
      cases n with
      | zero =>
        have hnew : (Operation.apply t (.push kind parent owner)).get? k =
            some ⟨kind, some parent, owner, []⟩ := by
          rw [Operation.apply, get?_push, if_pos (by omega)]
        obtain rfl := Option.some.inj (h.symm.trans (get?_run hnew))
        refine ⟨⟨kind, some parent, owner, []⟩, rfl, fun p hp => ?_, by rw [since, since]⟩
        obtain rfl := Option.some.inj hp
        have hparent : parent.index < t.size := hop
        omega
      | succ n => exact ih hfit (by omega) h
    | add scope name decl => exact ih hfit (hk.trans (by rw [Operation.apply, size_add])) h
    | remove scope decl => exact ih hfit (hk.trans (by rw [Operation.apply, size_remove])) h

/-- What is done since a scope was opened makes it. -/
theorem exists_opened_of_empty (hfit : empty.Fitting ops) (h : (empty.run ops).get? k = some s) :
    ∃ s₀ : Scope, s₀.entries = [] ∧ (∀ p, s₀.parent = some p → p.index < k.index) ∧
      s = (since k.index ops).foldl (Operation.onScope k) s₀ := by
  obtain ⟨index⟩ := k
  cases index with
  | zero =>
    obtain rfl := Option.some.inj (h.symm.trans (get?_run rfl))
    exact ⟨⟨.global, none, none, []⟩, rfl, nofun, by rw [since]; rfl⟩
  | succ n => exact exists_opened hfit (Nat.add_comm n 1) h

/-- Scopes lie inside scopes with smaller numbers. -/
def Nested (t : ScopeTree) : Prop :=
  ∀ k s p, t.get? k = some s → s.parent = some p → p.index < k.index

/-- Scopes that are opened inside existing ones lie inside scopes with smaller numbers. -/
theorem nested_run (hfit : empty.Fitting ops) : (empty.run ops).Nested := by
  intro k s p hs hp
  obtain ⟨s₀, -, hparent, rfl⟩ := exists_opened_of_empty hfit hs
  rw [parent_foldl] at hp
  exact hparent p hp

/-- The history of a scope says what the scope says about a name. -/
theorem lookup_run (hfit : empty.Fitting ops) (h : (empty.run ops).get? k = some s)
    (name : String) :
    (EverAdded ops k name →
      s.lookup name = some (((bindingsOf ops k).find? (·.1 = name)).map Prod.snd)) ∧
      (¬EverAdded ops k name → s.lookup name = none) := by
  obtain ⟨s₀, hentries, -, rfl⟩ := exists_opened_of_empty hfit h
  have hbindings : s₀.bindings = [] := by rw [Scope.bindings, hentries]; rfl
  have hnames : ((since k.index ops).foldl (Operation.onScope k) s₀).Names name ↔
      EverAdded ops k name := by
    rw [names_foldl, EverAdded]
    simp [Scope.Names, hentries]
  refine ⟨fun hadded => ?_, fun hadded => Scope.lookup_of_not_names (mt hnames.1 hadded)⟩
  rw [Scope.lookup_of_names (hnames.2 hadded), bindings_foldl, hbindings, bindingsOf]

/-! ## Walking outward -/

/-- The scopes from one outward to the one that has no parent. -/
inductive Lineage (t : ScopeTree) : ScopeId → List ScopeId → Prop
  | top {c : ScopeId} : t.parent? c = none → Lineage t c [c]
  | inside {c p : ScopeId} {l : List ScopeId} :
      t.parent? c = some p → Lineage t p l → Lineage t c (c :: l)

/-- A walk outward that ends with an answer to a lookup. -/
inductive Resolves (t : ScopeTree) (name : String) : ScopeId → Option DeclId → Prop
  | missing {c : ScopeId} : t.get? c = none → Resolves t name c none
  | here {c : ScopeId} {s : Scope} {found : Option DeclId} :
      t.get? c = some s → s.lookup name = some found →
      Resolves t name c found
  | outside {c p : ScopeId} {s : Scope} {found : Option DeclId} :
      t.get? c = some s → s.lookup name = none →
      s.parent = some p → Resolves t name p found → Resolves t name c found
  | top {c : ScopeId} {s : Scope} : t.get? c = some s → s.lookup name = none → s.parent = none →
      Resolves t name c none

/-- There is one way outward from a scope. -/
theorem Lineage.unique {l l' : List ScopeId} (h : t.Lineage c l) (h' : t.Lineage c l') :
    l = l' := by
  induction h generalizing l' with
  | top hp =>
    cases h' with
    | top => rfl
    | inside hp' => cases hp.symm.trans hp'
  | inside hp _ ih =>
    cases h' with
    | top hp' => cases hp.symm.trans hp'
    | inside hp' hl' =>
      obtain rfl := Option.some.inj (hp.symm.trans hp')
      rw [ih hl']

/-- The parent of a scope has a smaller number. -/
theorem parent?_lt (hnested : t.Nested) {p : ScopeId} (h : t.parent? c = some p) :
    p.index < c.index := by
  obtain ⟨s, hs, hp⟩ := Option.bind_eq_some_iff.1 h
  exact hnested c s p hs hp

/-- A walk of as many steps as the number of a scope reaches the top. -/
theorem lineage_chain (hnested : t.Nested) :
    ∀ (n : Nat) (c : ScopeId), c.index ≤ n → t.Lineage c (t.chain n c)
  | 0, c, hc => by
    cases hp : t.parent? c with
    | none => exact .top hp
    | some p => exact absurd (parent?_lt hnested hp) (by omega)
  | n + 1, c, hc => by
    rw [chain]
    cases hp : t.parent? c with
    | none => exact .top hp
    | some p =>
      exact .inside hp (lineage_chain hnested n p (by have := parent?_lt hnested hp; omega))

/-- The way outward from a scope that exists ends with the one that has no parent. -/
theorem lineage_ancestors (hnested : t.Nested) (hc : c.index < t.size) :
    t.Lineage c (t.ancestors c) :=
  lineage_chain hnested t.size c (Nat.le_of_lt hc)

/-- All scopes on the way outward exist. -/
theorem Lineage.lt_size {l : List ScopeId} (h : t.Lineage c l) (hnested : t.Nested)
    (hc : c.index < t.size) :
    ∀ k ∈ l, k.index < t.size := by
  induction h with
  | top hp => exact List.forall_mem_singleton.2 hc
  | inside hp _ ih =>
    exact List.forall_mem_cons.2 ⟨hc, ih (Nat.lt_trans (parent?_lt hnested hp) hc)⟩

theorem search_of_some {l : List ScopeId} {found : Option DeclId} (hs : t.get? k = some s)
    (h : s.lookup name = some found) : t.search name (k :: l) = found := by
  simp only [search, hs, h]

/-- A scope that says nothing about a name is passed. -/
theorem search_of_none {l : List ScopeId} (hs : t.get? k = some s) (h : s.lookup name = none) :
    t.search name (k :: l) = t.search name l := by
  simp only [search, hs, h]

/-- The search through the scopes on the way outward is the walk. -/
theorem Lineage.resolves {l : List ScopeId} (h : t.Lineage c l) (name : String) :
    t.Resolves name c (t.search name l) := by
  induction h with
  | @top c hp =>
    cases hs : t.get? c with
    | none =>
      rw [search, hs]
      exact .missing hs
    | some s =>
      cases hfound : s.lookup name with
      | some found =>
        rw [search_of_some hs hfound]
        exact .here hs hfound
      | none =>
        rw [search_of_none hs hfound]
        exact .top hs hfound (by simpa [parent?, hs] using hp)
  | @inside c p l hp _ ih =>
    obtain ⟨s, hs, hparent⟩ := Option.bind_eq_some_iff.1 hp
    cases hfound : s.lookup name with
    | some found =>
      rw [search_of_some hs hfound]
      exact .here hs hfound
    | none =>
      rw [search_of_none hs hfound]
      exact .outside hs hfound hparent ih

/-- The search passes scopes that say nothing about the name. -/
theorem search_append {inner : List ScopeId}
    (h : ∀ k ∈ inner, ∃ s, t.get? k = some s ∧ s.lookup name = none) (l : List ScopeId) :
    t.search name (inner ++ l) = t.search name l := by
  induction inner with
  | nil => rfl
  | cons k inner ih =>
    obtain ⟨⟨s, hs, hnone⟩, hinner⟩ := List.forall_mem_cons.1 h
    rw [List.cons_append, search_of_none hs hnone, ih hinner]

/-- A search sees only the scopes it passes. -/
theorem search_congr {t' : ScopeTree} {l : List ScopeId} (h : ∀ k ∈ l, t'.get? k = t.get? k) :
    t'.search name l = t.search name l := by
  induction l with
  | nil => rfl
  | cons k l ih =>
    obtain ⟨hk, hl⟩ := List.forall_mem_cons.1 h
    rw [search, search, hk, ih hl]

/-! ## Lookups -/

/-- Removing a declaration from a scope takes it out of its first entry there and
changes nothing else. -/
structure RemovesFirst (t : ScopeTree) (k : ScopeId) (decl : DeclId) : Prop where
  first : ∀ s front e back, t.get? k = some s → s.entries = front ++ e :: back →
    (∀ x ∈ front, x.decl ≠ some decl) → e.decl = some decl →
      (t.remove k decl).1 = true ∧
        (t.remove k decl).2.get? k =
          some { s with entries := front ++ { e with decl := none } :: back }
  missing : ∀ s, t.get? k = some s → (∀ x ∈ s.entries, x.decl ≠ some decl) →
    t.remove k decl = (false, t)
  unknown : t.get? k = none → t.remove k decl = (false, t)
  others : ∀ k', k' ≠ k → (t.remove k decl).2.get? k' = t.get? k'

/-- A declaration is taken out of its first entry. -/
theorem removesFirst (t : ScopeTree) (k : ScopeId) (decl : DeclId) : t.RemovesFirst k decl where
  first s front e back hs hentries hfront he := by
    have hlive : decl ∈ s.live := by
      rw [Scope.live, List.mem_filterMap]
      exact ⟨e, by simp [hentries], he⟩
    refine ⟨by simpa [remove, hs] using hlive, ?_⟩
    rw [get?_remove, if_pos rfl, hs, Option.map_some, Scope.remove, hentries,
      Scope.eraseFirst_of_split hfront he]
  missing s hs hall := by
    have hlive : decl ∉ s.live := by
      rw [Scope.live, List.mem_filterMap]
      rintro ⟨e, he, hdecl⟩
      exact hall e he hdecl
    refine Prod.ext (by simpa [remove, hs] using hlive) (ext_get? fun k' => ?_)
    rw [get?_remove]
    split
    · rename_i hk
      rw [← hk, hs, Option.map_some, Scope.remove, Scope.eraseFirst_of_forall_ne hall]
    · rfl
  unknown hk := by rw [remove, hk]
  others k' hne := by rw [get?_remove, if_neg (Ne.symm hne)]

/-- An operation may follow if it fits what the others have made. -/
theorem fitting_concat (hfit : t.Fitting ops) (hop : op.Fits (t.run ops)) :
    t.Fitting (ops ++ [op]) := by
  induction ops generalizing t with
  | nil => exact ⟨hop, trivial⟩
  | cons _ _ ih => exact ⟨hfit.1, ih hfit.2 hop⟩

theorem run_concat (t : ScopeTree) (ops : List Operation) (op : Operation) :
    t.run (ops ++ [op]) = op.apply (t.run ops) := List.foldl_concat ..

/-- An operation leaves the way outward as it is. -/
theorem Lineage.apply {l : List ScopeId} (h : t.Lineage c l) (hnested : t.Nested)
    (hc : c.index < t.size) (op : Operation) : (op.apply t).Lineage c l := by
  have hparent : ∀ {c : ScopeId}, c.index < t.size → (op.apply t).parent? c = t.parent? c := by
    intro c hc
    obtain ⟨s, hs⟩ := exists_get? hc
    simp only [parent?, get?_apply hs, hs, Bind.bind, Option.bind, parent_onScope]
  induction h with
  | top hp => exact .top ((hparent hc).trans hp)
  | inside hp _ ih =>
    exact .inside ((hparent hc).trans hp) (ih (Nat.lt_trans (parent?_lt hnested hp) hc))

/-- An operation leaves lookups as they are unless it is on a scope on their way. -/
theorem find?_apply (hfit : empty.Fitting ops) (hop : op.Fits (empty.run ops))
    (hc : c.index < (empty.run ops).size) :
    (op.apply (empty.run ops)).ancestors c = (empty.run ops).ancestors c ∧
      ((∀ k ∈ (empty.run ops).ancestors c, op.scope? ≠ some k) →
        (op.apply (empty.run ops)).find? c name = (empty.run ops).find? c name) := by
  have hnested := nested_run hfit
  have hlineage := lineage_ancestors hnested hc
  have hafter : (op.apply (empty.run ops)).Nested :=
    run_concat empty ops op ▸ nested_run (fitting_concat hfit hop)
  obtain ⟨s, hs⟩ := exists_get? hc
  have hancestors := (lineage_ancestors hafter (index_lt_of_get? (get?_apply hs))).unique
    (hlineage.apply hnested hc op)
  refine ⟨hancestors, fun hscope => ?_⟩
  rw [find?, find?, hancestors]
  refine search_congr fun k hk => ?_
  obtain ⟨s, hs⟩ := exists_get? (hlineage.lt_size hnested hc k hk)
  rw [get?_apply hs, onScope_of_ne (hscope k hk), hs]

/-- A scope to which a name was never added says nothing about it. -/
theorem exists_silent (hfit : empty.Fitting ops) (hk : k.index < (empty.run ops).size)
    (h : ¬EverAdded ops k name) :
    ∃ s, (empty.run ops).get? k = some s ∧ s.lookup name = none := by
  obtain ⟨s, hs⟩ := exists_get? hk
  exact ⟨s, hs, (lookup_run hfit hs name).2 h⟩

end

/-- What a lookup gives after any history of operations. The walk outward ends. The nearest scope to
which the name was ever added decides, with the earliest declaration that is left there, even if
none is; without such a scope nothing is found. A removal affects the first entry of the declaration
only, and operations on scopes that are not on the way outward change nothing. -/
theorem find?_after_history {ops : List Operation} (hfit : empty.Fitting ops) {c : ScopeId}
    (hc : c.index < (empty.run ops).size) (name : String) :
    let t := empty.run ops
    (t.Lineage c (t.ancestors c) ∧ t.Resolves name c (t.find? c name)) ∧
    (∀ inner k outer, t.ancestors c = inner ++ k :: outer → (∀ i ∈ inner, ¬EverAdded ops i name) →
      EverAdded ops k name →
      t.find? c name = ((bindingsOf ops k).find? (·.1 = name)).map Prod.snd) ∧
    ((∀ k ∈ t.ancestors c, ¬EverAdded ops k name) → t.find? c name = none) ∧
    (∀ k decl, t.RemovesFirst k decl) ∧
    ∀ op : Operation, op.Fits t → (op.apply t).ancestors c = t.ancestors c ∧
      ((∀ k ∈ t.ancestors c, op.scope? ≠ some k) → (op.apply t).find? c name = t.find? c name) := by
  intro t
  have hlineage : t.Lineage c (t.ancestors c) := lineage_ancestors (nested_run hfit) hc
  have hexists := hlineage.lt_size (nested_run hfit) hc
  refine ⟨⟨hlineage, hlineage.resolves name⟩, ?_, ?_, t.removesFirst,
    fun op hop => find?_apply hfit hop hc⟩
  · intro inner k outer hsplit hinner hk
    rw [hsplit, List.forall_mem_append, List.forall_mem_cons] at hexists
    obtain ⟨s, hs⟩ := exists_get? hexists.2.1
    have hsilent := fun i hi => exists_silent hfit (hexists.1 i hi) (hinner i hi)
    rw [find?, hsplit, search_append hsilent, search_of_some hs ((lookup_run hfit hs name).1 hk)]
  · intro hnever
    have hsilent := fun k hk => exists_silent hfit (hexists k hk) (hnever k hk)
    rw [find?, ← List.append_nil (t.ancestors c), search_append hsilent, search]

/-- A name that is added to two scopes, twice to the inner one, where both declarations are
then removed. -/
def removals : List Operation :=
  [.add ⟨0⟩ "x" ⟨0⟩, .push .function ⟨0⟩ none, .push .block ⟨1⟩ none, .add ⟨1⟩ "x" ⟨1⟩,
    .add ⟨1⟩ "x" ⟨2⟩, .remove ⟨1⟩ ⟨1⟩, .remove ⟨1⟩ ⟨2⟩]

/-- While one of the two declarations is left, it is found from a block inside. Once both are
removed, nothing is found, not the outer one either. -/
theorem find?_after_removals :
    (empty.run (removals.take 6)).find? ⟨2⟩ "x" = some ⟨2⟩ ∧
      (empty.run removals).find? ⟨2⟩ "x" = none ∧
      bindingsOf removals ⟨0⟩ = [("x", ⟨0⟩)] := by
  have hnever : ¬EverAdded (removals.take 6) ⟨2⟩ "x" ∧ ¬EverAdded removals ⟨2⟩ "x" := by
    constructor <;>
    · rintro ⟨decl, hdecl⟩
      simp [removals, since] at hdecl
  refine ⟨?_, ?_, by decide⟩
  · exact (find?_after_history (by decide) (by decide) "x").2.1 [⟨2⟩] ⟨1⟩ [⟨0⟩] (by decide)
      (List.forall_mem_singleton.2 hnever.1) ⟨⟨1⟩, by decide⟩
  · exact (find?_after_history (by decide) (by decide) "x").2.1 [⟨2⟩] ⟨1⟩ [⟨0⟩] (by decide)
      (List.forall_mem_singleton.2 hnever.2) ⟨⟨1⟩, by decide⟩

end ScopeTree

end Rill
