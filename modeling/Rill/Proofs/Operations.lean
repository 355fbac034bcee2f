import Rill.Proofs.Moves

/-!
# A parser that is driven by hand

Besides reading whole texts, a parser offers its steps one by one (`Parse.Operation`), and it can be
used further after a failure. `Parser.Reached` are the parsers that some operations lead to from the
start of a text, each of which may have succeeded or failed.

Every operation is made of moves, so the scopes have grown along marks from the global scope alone
(`Parser.Reached.grows`). What follows for one more operation is `Parser.Extends` : the parser is in
the same scope, the scopes that were there have only gained entries at their ends, scopes lie inside
scopes with smaller numbers, and new declarations have larger numbers than all before
(`Parse.operations_extend`).
-/

namespace Rill

/-- The declaration is entered in one of the scopes. -/
def ScopeTree.Lists (t : ScopeTree) (id : DeclId) : Prop :=
  ∃ k s, t.get? k = some s ∧ id ∈ s.live

namespace ScopeTree

variable {t : ScopeTree} {id : DeclId} {k : ScopeId}

theorem exists_get? (h : k.index < t.size) : ∃ s, t.get? k = some s :=
  ⟨_, Array.getElem?_eq_getElem h⟩

@[simp]
theorem live_add (s : Scope) (name : String) (id : DeclId) :
    (s.add name id).live = s.live ++ [id] := by
  simp [Scope.live, Scope.add]

/-- To enter a declaration adds that one and no other. -/
theorem lists_add {name : String} {new : DeclId} (h : k.index < t.size) :
    (t.add k name new).Lists id ↔ t.Lists id ∨ id = new := by
  constructor
  · rintro ⟨l, s, hs, hid⟩
    rw [get?_add] at hs
    split at hs
    · obtain ⟨s, hs', rfl⟩ := Option.map_eq_some_iff.1 hs
      rw [live_add, List.mem_append, List.mem_singleton] at hid
      exact hid.imp_left fun hid => ⟨l, s, hs', hid⟩
    · exact .inl ⟨l, s, hs, hid⟩
  · rintro (⟨l, s, hs, hid⟩ | rfl)
    · by_cases hl : k = l
      · exact ⟨l, s.add name new, by rw [get?_add, if_pos hl, hs]; rfl, by simp [hid]⟩
      · exact ⟨l, s, by rw [get?_add, if_neg hl, hs], hid⟩
    · obtain ⟨s, hs⟩ := exists_get? h
      exact ⟨k, s.add name id, by rw [get?_add, if_pos rfl, hs]; rfl, by simp⟩

/-- A new scope holds no declaration. -/
theorem lists_push {kind : ScopeKind} {outer : ScopeId} {owner : Option DeclId} :
    (t.push kind outer owner).2.Lists id ↔ t.Lists id := by
  constructor
  · rintro ⟨l, s, hs, hid⟩
    rw [get?_push] at hs
    split at hs
    · obtain rfl := Option.some.inj hs
      simp [Scope.live] at hid
    · exact ⟨l, s, hs, hid⟩
  · rintro ⟨l, s, hs, hid⟩
    have hne : l.index ≠ t.size := Nat.ne_of_lt (index_lt_of_get? hs)
    exact ⟨l, s, by rw [get?_push, if_neg hne, hs], hid⟩

end ScopeTree

namespace Grows

variable {t t' : ScopeTree} {n n' : Nat} {ms : List ScopeMark}

/-- Declarations are numbered in the order in which they are made. -/
theorem next_eq (h : Grows t n ms t' n') : n' = n + (declarations ms).length := by
  induction h with
  | done => rfl
  | declared _ _ ih =>
    rw [ih, declarations_declared, List.length_cons]
    omega
  | opened _ _ ih | body _ ih => exact ih

/-- Declarations are entered as they take their numbers, and no other way. -/
theorem lists_iff (h : Grows t n ms t' n') {id : DeclId} :
    t'.Lists id ↔ t.Lists id ∨ id ∈ (declarations ms).map Declared.id := by
  induction h with
  | done => simp
  | declared hscope _ ih =>
    rw [ih, ScopeTree.lists_add hscope, declarations_declared, List.map_cons,
      List.mem_cons, or_assoc]
  | opened _ _ ih => rw [ih, ScopeTree.lists_push, declarations_opened]
  | body _ ih => exact ih

theorem global_lt (h : Grows .empty 0 ms t n) : ScopeId.global.index < t.size := by
  rw [h.size_eq]
  exact Nat.lt_add_right _ Nat.zero_lt_one

/-- Scopes that have grown from the global one lie inside scopes with smaller numbers. -/
theorem outer_lt (h : Grows .empty 0 ms t n) {k : ScopeId} {s : Scope} (hs : t.get? k = some s)
    (hk : k ≠ .global) : ∃ outer, s.parent = some outer ∧ outer.index < k.index := by
  -- the scope was opened by a node, as their numbers are consecutive
  have hmem : k.index ∈ (openings ms).map (·.id.index) := by
    have hlt := ScopeTree.index_lt_of_get? hs
    have hsize := h.size_eq
    have hempty : ScopeTree.empty.size = 1 := rfl
    have hpos : k.index ≠ 0 := fun hzero => hk (congrArg ScopeId.mk hzero)
    rw [h.scopeIds, List.mem_range'_1]
    omega
  obtain ⟨o, ho, hindex⟩ := List.mem_map.1 hmem
  obtain rfl : o.id = k := congrArg ScopeId.mk hindex
  rw [h.get?_of_opened o ho, Option.some.injEq] at hs
  exact ⟨o.outer, by rw [← hs], h.nested o ho⟩

/-- Declarations that were entered since there was only the global scope have smaller
numbers than the next. -/
theorem index_lt (h : Grows .empty 0 ms t n) {id : DeclId} (hid : t.Lists id) : id.index < n := by
  have hempty : ¬ ScopeTree.empty.Lists id := by
    rintro ⟨k, s, hs, hlive⟩
    obtain ⟨hlt, heq⟩ := Array.getElem?_eq_some_iff.1 hs
    have hzero : k.index = 0 := Nat.lt_one_iff.1 hlt
    obtain rfl : ⟨.global, none, none, []⟩ = s := by
      rw [← heq]
      simp only [hzero]
      rfl
    simp [Scope.live] at hlive
  have hmem := (h.lists_iff.1 hid).resolve_left hempty
  have hindex := List.mem_map_of_mem (f := DeclId.index) hmem
  rw [List.map_map, show DeclId.index ∘ Declared.id = fun d => d.id.index from rfl, h.ids,
    List.mem_range'_1]
    at hindex
  rw [h.next_eq]
  exact hindex.2

end Grows

/-! ## Operations -/

/-- The operations of a parser. What reads the items and the separators of a list may be any steps
that are made of moves. -/
inductive Parse.Operation : {α : Type} → Parse α → Prop
  | advance : Operation advance
  | accept (text : String) : Operation (accept text)
  | punctuation (text : String) : Operation (punctuation text)
  | word (text : String) : Operation (word text)
  | identifier : Operation identifier
  | typeRef : Operation typeRef?
  | declare (ident : Ident) : Operation (declare ident)
  | variableDecl (n : Nat) (constant : Bool) :
      Operation (variableDecl (nested .standard n) constant)
  | funcDecl (n : Nat) : Operation (funcDecl (nested .standard n))
  | statement (n : Nat) : Operation (statement .standard n)
  | expression (n : Nat) : Operation (expression Grammar.standardOperators n)
  | block (n : Nat) : Operation (block (nested .standard n))
  | separated {α : Type} {item : Parse α} {separator : Parse Bool} (stop : Parser → Bool) (n : Nat)
      (hitem : ∀ c, MadeIn c item) (hseparator : ∀ c, MadeIn c separator) :
      Operation (separated item stop separator n)

open Parse in
theorem Parse.Operation.made {α : Type} {act : Parse α} (h : Operation act) (c : ScopeId) :
    MadeIn c act := by
  have hc := closed_made.tokenClosed c
  have hnested := fun n => closed_made.nested n
  cases h with
  | advance => exact .advance
  | accept text => exact hc.accept text
  | punctuation text => exact hc.punctuation text
  | word text => exact hc.word text
  | identifier => exact hc.identifier
  | typeRef => exact hc.typeRef?
  | declare ident => exact .declare ident
  | variableDecl n constant => exact closed_made.variableDecl (hnested n) constant
  | funcDecl n => exact closed_made.funcDecl (hnested n)
  | statement n => exact closed_made.statement n c
  | expression n => exact hc.expression _ n
  | block n => exact closed_made.block (hnested n)
  | separated stop n hitem hseparator => exact hc.separated (hitem c) (hseparator c) n

namespace Parser

/-- The parsers that operations lead to from the start of a text, whether they succeed or fail. -/
inductive Reached (b : Buffer) : Parser → Prop
  | start {p : Parser} (h : Parser.start b = .ok p) : Reached b p
  | operation {p : Parser} {α : Type} {act : Parse α} (h : Reached b p) (hact : act.Operation) :
      Reached b (act.after p)

/-- What an operation has done to the scopes of a parser `p` that has become `q`. -/
structure Extends (p q : Parser) : Prop where
  scope : q.scope = p.scope
  exists_scope : q.scope.index < q.scopes.size
  /-- Scopes that were there keep their kind, parent and owner, and gain entries at the end only. -/
  kept : ∀ k s, p.scopes.get? k = some s →
    ∃ entries, q.scopes.get? k = some { s with entries := s.entries ++ entries }
  nested : ∀ k s, q.scopes.get? k = some s → k ≠ .global →
    ∃ outer, s.parent = some outer ∧ outer.index < k.index
  /-- Declarations are numbered one after the other, in the order in which they are entered, -/
  issued : ∃ ids : List DeclId, ids.map DeclId.index = List.range' p.nextDecl ids.length ∧
    q.nextDecl = p.nextDecl + ids.length ∧ ∀ id, q.scopes.Lists id ↔ p.scopes.Lists id ∨ id ∈ ids
  /-- after all that were entered before. -/
  earlier : ∀ id, p.scopes.Lists id → id.index < p.nextDecl

variable {b : Buffer} {p : Parser}

theorem eq_ofBuffer_of_start (h : Parser.start b = .ok p) : p = ofBuffer b := by
  rw [start_eq] at h
  split at h
  · cases h
  · exact (Except.ok.inj h).symm

/-- The scopes of a parser have grown from the global one, which it is in. -/
theorem Reached.grows (h : p.Reached b) :
    p.scope = .global ∧ ∃ ms, Grows .empty 0 ms p.scopes p.nextDecl := by
  induction h with
  | @start p h =>
    obtain rfl := eq_ofBuffer_of_start h
    exact ⟨rfl, [], .done _ _⟩
  | @operation p α act _ hact ih =>
    obtain ⟨hscope, ms, hgrows⟩ := ih
    have hlater := (hact.made p.scope).later (p := p) rfl
    obtain ⟨ms', hgrows'⟩ := hlater.grows (hscope ▸ hgrows.global_lt)
    exact ⟨hlater.scope.trans hscope, ms ++ ms', hgrows.append hgrows'⟩

end Parser

/-- Whether an operation succeeds or fails, it leaves the parser in the scope in which it was, which
is there. Scopes that were there have only gained entries at their ends, all but the global one lie
in scopes with smaller numbers, and new declarations have larger numbers than all earlier ones. -/
theorem Parse.operations_extend {b : Buffer} {p : Parser} (hp : p.Reached b) {α : Type}
    {act : Parse α} (hact : act.Operation) : p.Extends (act.after p) := by
  obtain ⟨hscope, ms, hgrows⟩ := hp.grows
  have hlater := (hact.made p.scope).later (p := p) rfl
  obtain ⟨ms', hgrows'⟩ := hlater.grows (hscope ▸ hgrows.global_lt)
  have hall := hgrows.append hgrows'
  refine ⟨hlater.scope, ?_, fun k s hs => ⟨_, hgrows'.get?_of_get? hs⟩,
    fun k s => hall.outer_lt, ?_, fun id => hgrows.index_lt⟩
  · rw [hlater.scope, hscope]
    exact hall.global_lt
  · refine ⟨(declarations ms').map Declared.id, ?_, by rw [hgrows'.next_eq, List.length_map],
      fun id => hgrows'.lists_iff⟩
    rw [List.map_map, List.length_map]
    exact hgrows'.ids

/-- A function that breaks off inside a loop has entered three declarations and opened two
scopes. The parser is in the global scope again, and a declaration that is entered then
takes the next number. -/
theorem Parse.operations_extend_broken :
    let p := Parser.ofBuffer (.anonymous "func f(a) \x7b for (var i = 0;")
    let q := (funcDecl (nested .standard 50)).after p
    let r := (declare ⟨"g", .unknown⟩).after q
    (((funcDecl (nested .standard 50)).eval p).map Func.id).isOk = false ∧
      p.Extends q ∧ q.scope = .global ∧ q.scopes.size = 3 ∧ q.nextDecl = 3 ∧
      q.Extends r ∧
      (r.scopes.get? .global).map Scope.entries = some [⟨"f", some ⟨0⟩⟩, ⟨"g", some ⟨3⟩⟩] := by
  intro p q r
  have hp : p.Reached (.anonymous "func f(a) \x7b for (var i = 0;") := .start rfl
  have hq : q.Reached (.anonymous "func f(a) \x7b for (var i = 0;") := hp.operation (.funcDecl 50)
  exact ⟨by decide +kernel,
    operations_extend hp (.funcDecl 50), by decide +kernel, by decide +kernel, by
    decide +kernel, operations_extend hq (.declare _), by decide +kernel⟩

end Rill
