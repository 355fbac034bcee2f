import Rill.Proofs.Places
import Rill.Proofs.Written

/-!
# Declarations and scopes of a tree

A tree that is walked over in the order of the text shows its declarations and the nodes that open
scopes (`Stmt.marks`, `Decl.marks`), each with the scope around it. A function opens a scope for its
parameters and its body, a class or a namespace one for its members; blocks, the bodies of switches
among them, and `for` statements open scopes of their own.

`Grows t n ms t' n'` says how scopes come about along the marks : every declaration takes the next
number and is entered in the scope around it, every node that opens a scope adds the next one. What
follows for a tree that starts with the global scope alone is `ScopeTree.Mirrors` : the scopes hold
exactly the declarations of the tree.
-/

namespace Rill

/-! ## Marks -/

/-- A declaration of a tree : its number, its name, the scope that it says it is in and the scope
around it. -/
structure Declared where
  id : DeclId
  ident : Ident
  scope : ScopeId
  outer : ScopeId

/-- A node that opens a scope : the scope, its kind and owner, and the scope around the node. -/
structure Opened where
  id : ScopeId
  kind : ScopeKind
  owner : Option DeclId
  outer : ScopeId

/-- What a tree shows of declarations and scopes. The body of a function shows its scope beside
that of the function. -/
inductive ScopeMark where
  | declared (decl : Declared)
  | opened (node : Opened)
  | body (scope own : ScopeId)

namespace ScopeMark

/-- The declaration of a mark. -/
def declared? : ScopeMark → Option Declared
  | .declared d => some d
  | _ => none

/-- The node of a mark that opens a scope. -/
def opened? : ScopeMark → Option Opened
  | .opened o => some o
  | _ => none

end ScopeMark

/-- The declarations among some marks. -/
def declarations (ms : List ScopeMark) : List Declared := ms.filterMap ScopeMark.declared?

/-- The nodes among some marks that open scopes. -/
def openings (ms : List ScopeMark) : List Opened := ms.filterMap ScopeMark.opened?

section

variable {ms ms' : List ScopeMark} {d : Declared} {o : Opened} {scope own : ScopeId}

@[simp]
theorem declarations_nil : declarations [] = [] := rfl

@[simp]
theorem declarations_declared : declarations (.declared d :: ms) = d :: declarations ms := rfl

@[simp]
theorem declarations_opened : declarations (.opened o :: ms) = declarations ms := rfl

@[simp]
theorem declarations_body : declarations (.body scope own :: ms) = declarations ms := rfl

/-- The declarations among marks in sequence are in sequence. -/
@[simp]
theorem declarations_append : declarations (ms ++ ms') = declarations ms ++ declarations ms' :=
  List.filterMap_append

@[simp]
theorem openings_nil : openings [] = [] := rfl

@[simp]
theorem openings_declared : openings (.declared d :: ms) = openings ms := rfl

@[simp]
theorem openings_opened : openings (.opened o :: ms) = o :: openings ms := rfl

@[simp]
theorem openings_body : openings (.body scope own :: ms) = openings ms := rfl

end

/-- A variable, a constant or a parameter. -/
def Variable.mark (outer : ScopeId) (v : Variable) : ScopeMark :=
  .declared ⟨v.id, v.ident, v.scope, outer⟩

mutual

/-- The marks of a statement in a scope, in the order of the text. -/
def Stmt.marks (outer : ScopeId) : Stmt → List ScopeMark
  | .decl d _ => d.marks outer
  | .block b => b.marks outer
  | .ifElse _ a b _ => a.marks outer ++ Stmt.marks? outer b
  | .whileDo _ body _ => body.marks outer
  | .doWhile body _ _ => body.marks outer
  | .forLoop init _ _ body scope _ =>
    .opened ⟨scope, .block, none, outer⟩ :: (Stmt.marks? scope init ++ body.marks scope)
  | .switch _ body _ => body.marks outer
  | _ => []

/-- The marks of a statement that may be missing. -/
def Stmt.marks? (outer : ScopeId) : Option Stmt → List ScopeMark
  | none => []
  | some s => s.marks outer

/-- The marks of statements one after the other. -/
def Stmt.allMarks (outer : ScopeId) : List Stmt → List ScopeMark
  | [] => []
  | s :: rest => s.marks outer ++ Stmt.allMarks outer rest

/-- The marks of a block that opens a scope. -/
def Block.marks (outer : ScopeId) : Block → List ScopeMark
  | ⟨stmts, scope, _⟩ => .opened ⟨scope, .block, none, outer⟩ :: Stmt.allMarks scope stmts

/-- The marks of a declaration. -/
def Decl.marks (outer : ScopeId) : Decl → List ScopeMark
  | .var v => [v.mark outer]
  | .func f => f.marks outer
  | .group g => g.marks outer

/-- The marks of declarations one after the other. -/
def Decl.allMarks (outer : ScopeId) : List Decl → List ScopeMark
  | [] => []
  | d :: rest => d.marks outer ++ Decl.allMarks outer rest

/-- The marks of a function. -/
def Func.marks (outer : ScopeId) : Func → List ScopeMark
  | ⟨id, ident, _, params, ⟨stmts, inner, _⟩, scope, own, _⟩ =>
    .declared ⟨id, ident, scope, outer⟩ :: .opened ⟨own, .function, some id, outer⟩ ::
      (params.map (Variable.mark own) ++ .body inner own :: Stmt.allMarks own stmts)

/-- The marks of a class or a namespace. -/
def Group.marks (outer : ScopeId) : Group → List ScopeMark
  | ⟨kind, id, ident, members, _, scope, own, _⟩ =>
    .declared ⟨id, ident, scope, outer⟩ :: .opened ⟨own, .group kind, some id, outer⟩ ::
      Decl.allMarks own members

end

/-- Statements show the marks of one after the other. -/
theorem Stmt.allMarks_eq_flatMap (outer : ScopeId) (ss : List Stmt) :
    Stmt.allMarks outer ss = ss.flatMap (Stmt.marks outer) := by
  induction ss with
  | nil => rfl
  | cons s rest ih => rw [Stmt.allMarks, ih, List.flatMap_cons]

theorem Decl.allMarks_eq_flatMap (outer : ScopeId) (ds : List Decl) :
    Decl.allMarks outer ds = ds.flatMap (Decl.marks outer) := by
  induction ds with
  | nil => rfl
  | cons d rest ih => rw [Decl.allMarks, ih, List.flatMap_cons]

/-! ## Scopes along the marks -/

/-- The entry of a declaration in its scope. -/
def Declared.entry (d : Declared) : Entry := ⟨d.ident.name, some d.id⟩

/-- The entries of the declarations among some marks that are in a scope. -/
def entriesOf (k : ScopeId) (ms : List ScopeMark) : List Entry :=
  ((declarations ms).filter (·.scope = k)).map Declared.entry

/-- Scopes `t`, with `n` as the next number, become `t'` and `n'` along the marks : a declaration
takes the next number and is entered in the scope around it, a node that opens a scope adds one
inside the scope around it. -/
inductive Grows : ScopeTree → Nat → List ScopeMark → ScopeTree → Nat → Prop
  | done (t : ScopeTree) (n : Nat) : Grows t n [] t n
  | declared {t t' : ScopeTree} {n n' : Nat} {ident : Ident} {scope : ScopeId} {ms : List ScopeMark}
      (exists_scope : scope.index < t.size)
      (more : Grows (t.add scope ident.name ⟨n⟩) (n + 1) ms t' n') :
      Grows t n (.declared ⟨⟨n⟩, ident, scope, scope⟩ :: ms) t' n'
  | opened {t t' : ScopeTree} {n n' : Nat} {kind : ScopeKind} {owner : Option DeclId}
      {outer : ScopeId} {ms : List ScopeMark} (exists_outer : outer.index < t.size)
      (more : Grows (t.push kind outer owner).2 n ms t' n') :
      Grows t n (.opened ⟨⟨t.size⟩, kind, owner, outer⟩ :: ms) t' n'
  | body {t t' : ScopeTree} {n n' : Nat} {scope : ScopeId} {ms : List ScopeMark}
      (more : Grows t n ms t' n') :
      Grows t n (.body scope scope :: ms) t' n'

namespace ScopeTree

variable {t : ScopeTree} {k id : ScopeId}

@[simp]
theorem size_add (name : String) (decl : DeclId) : (t.add id name decl).size = t.size := by
  simp [add, size]

/-- To open a scope adds one. -/
@[simp]
theorem size_push (kind : ScopeKind) (parent : ScopeId) (owner : Option DeclId) :
    (t.push kind parent owner).2.size = t.size + 1 := by
  simp [push, size]

/-- A declaration is entered in its scope and in no other. -/
theorem get?_add (name : String) (decl : DeclId) :
    (t.add id name decl).get? k =
      if id = k then (t.get? k).map (·.add name decl) else t.get? k := by
  obtain ⟨index⟩ := k
  obtain ⟨i⟩ := id
  simp only [get?, add, Array.getElem?_modify, ScopeId.mk.injEq]

/-- A new scope is empty, and the others stay as they are. -/
theorem get?_push (kind : ScopeKind) (parent : ScopeId) (owner : Option DeclId) :
    (t.push kind parent owner).2.get? k =
      if k.index = t.size then some ⟨kind, some parent, owner, []⟩ else t.get? k := by
  simp only [get?, push, size, Array.getElem?_push]
  rfl

/-- Scopes are numbered from zero. -/
theorem index_lt_of_get? {s : Scope} (h : t.get? k = some s) : k.index < t.size := by
  obtain ⟨hlt, -⟩ := Array.getElem?_eq_some_iff.1 h
  exact hlt

end ScopeTree

namespace Grows

variable {t t' t'' : ScopeTree} {n n' n'' : Nat} {ms ms' : List ScopeMark}

/-- Scopes that grow twice have grown along both lists of marks. -/
theorem append (h : Grows t n ms t' n') (h' : Grows t' n' ms' t'' n'') :
    Grows t n (ms ++ ms') t'' n'' := by
  induction h with
  | done => exact h'
  | declared hscope _ ih => exact .declared hscope (ih h')
  | opened houter _ ih => exact .opened houter (ih h')
  | body _ ih => exact .body (ih h')

/-- As many scopes are added as nodes open one. -/
theorem size_eq (h : Grows t n ms t' n') : t'.size = t.size + (openings ms).length := by
  induction h with
  | done => rfl
  | declared _ _ ih => simpa using ih
  | opened _ _ ih =>
    rw [ih, ScopeTree.size_push, openings_opened, List.length_cons]
    omega
  | body _ ih => exact ih

/-- Declarations have consecutive numbers. -/
theorem ids (h : Grows t n ms t' n') :
    (declarations ms).map (·.id.index) = List.range' n (declarations ms).length := by
  induction h with
  | done => rfl
  | declared _ _ ih => simp [List.range'_succ, ih]
  | opened _ _ ih | body _ ih => exact ih

theorem scopeIds (h : Grows t n ms t' n') :
    (openings ms).map (·.id.index) = List.range' t.size (openings ms).length := by
  induction h with
  | done => rfl
  | declared _ _ ih => simpa using ih
  | opened _ _ ih =>
    rw [ScopeTree.size_push] at ih
    simp [List.range'_succ, ih]
  | body _ ih => exact ih

/-- Declarations are in the scope around them, which is there. -/
theorem placed (h : Grows t n ms t' n') :
    ∀ d ∈ declarations ms, d.scope = d.outer ∧ d.scope.index < t'.size := by
  induction h with
  | done => simp
  | declared hscope more ih =>
    have hsize := more.size_eq
    rw [ScopeTree.size_add] at hsize
    rw [declarations_declared, List.forall_mem_cons]
    exact ⟨⟨rfl, by simp only; omega⟩, ih⟩
  | opened _ _ ih | body _ ih => exact ih

/-- A scope is opened inside one that was opened before it. -/
theorem nested (h : Grows t n ms t' n') : ∀ o ∈ openings ms, o.outer.index < o.id.index := by
  induction h with
  | done => simp
  | declared _ _ ih | body _ ih => exact ih
  | opened houter _ ih =>
    rw [openings_opened, List.forall_mem_cons]
    exact ⟨houter, ih⟩

/-- The body of a function shows the scope of the function. -/
theorem bodies (h : Grows t n ms t' n') : ∀ scope own, .body scope own ∈ ms → scope = own := by
  induction h with
  | done => simp
  | declared _ _ ih | opened _ _ ih => simpa using ih
  | body _ ih =>
    intro scope own hmem
    rcases List.mem_cons.1 hmem with heq | hmem
    · obtain ⟨rfl, rfl⟩ := ScopeMark.body.inj heq
      rfl
    · exact ih scope own hmem

/-- Scopes that are there gain the entries of the declarations in them. -/
theorem get?_of_get? (h : Grows t n ms t' n') {k : ScopeId} {s : Scope} (hs : t.get? k = some s) :
    t'.get? k = some { s with entries := s.entries ++ entriesOf k ms } := by
  induction h generalizing s with
  | done => simpa [entriesOf] using hs
  | @declared t t' n n' ident scope ms hscope more ih =>
    have hadd : (t.add scope ident.name ⟨n⟩).get? k = _ := ScopeTree.get?_add ident.name ⟨n⟩
    by_cases hk : scope = k
    · rw [if_pos hk, hs] at hadd
      simpa [entriesOf, hk, Scope.add, Declared.entry] using ih hadd
    · rw [if_neg hk, hs] at hadd
      simpa [entriesOf, hk] using ih hadd
  | @opened t t' n n' kind owner outer ms houter more ih =>
    have hne : k.index ≠ t.size := Nat.ne_of_lt (ScopeTree.index_lt_of_get? hs)
    have hpush := ScopeTree.get?_push (t := t) (k := k) kind outer owner
    rw [if_neg hne, hs] at hpush
    exact ih hpush
  | body _ ih => exact ih hs

/-- Scopes that are opened hold the entries of the declarations in them. -/
theorem get?_of_opened (h : Grows t n ms t' n') :
    ∀ o ∈ openings ms, t'.get? o.id = some ⟨o.kind, some o.outer, o.owner, entriesOf o.id ms⟩ := by
  induction h with
  | done => simp
  | @declared t t' n n' ident scope ms hscope more ih =>
    intro o ho
    have hle : t.size ≤ o.id.index := by
      have hmem := List.mem_map_of_mem (f := fun o : Opened => o.id.index) ho
      rw [openings_declared, more.scopeIds, List.mem_range'_1, ScopeTree.size_add] at hmem
      exact hmem.1
    have hne : scope ≠ o.id := by
      rintro rfl
      omega
    simpa [entriesOf, hne] using ih o ho
  | @opened t t' n n' kind owner outer ms houter more ih =>
    rw [openings_opened, List.forall_mem_cons]
    have hpush := ScopeTree.get?_push (t := t) (k := ⟨t.size⟩) kind outer owner
    rw [if_pos rfl] at hpush
    exact ⟨more.get?_of_get? hpush, ih⟩
  | body _ ih => exact ih

end Grows

/-! ## Scopes that mirror a tree -/

/-- The scopes hold exactly the declarations of a tree with the given marks, and belong to the
nodes that open them. -/
structure ScopeTree.Mirrors (t : ScopeTree) (ms : List ScopeMark) : Prop where
  /-- The declarations are numbered from zero on, in the order of their names in the text. -/
  ids : (declarations ms).map (·.id.index) = List.range (declarations ms).length
  order : (declarations ms).Pairwise fun d d' => d.ident.range.stop ≤ d'.ident.range.start
  /-- Each is in the scope around it, -/
  placed : ∀ d ∈ declarations ms, d.scope = d.outer ∧ d.scope.index < t.size
  /-- and the entries of a scope are those of the declarations in it, in order. -/
  entries : ∀ k s, t.get? k = some s → s.entries = entriesOf k ms
  global : ∃ entries, t.get? .global = some ⟨.global, none, none, entries⟩
  /-- The other scopes belong to the nodes that open them, one to each, in the order of the text. -/
  owners : (openings ms).map (·.id.index) = List.range' 1 (t.size - 1)
  /-- They have the kind and the owner of the node, and the scope around it as their parent. -/
  scopes : ∀ o ∈ openings ms, ∃ entries, t.get? o.id = some ⟨o.kind, some o.outer, o.owner, entries⟩
  nested : ∀ o ∈ openings ms, o.outer.index < o.id.index
  /-- The body of a function has no scope but that of the function. -/
  bodies : ∀ scope own, .body scope own ∈ ms → scope = own

/-- Scopes that have grown along the marks of a tree from nothing mirror the tree, if its
declarations are in the order of the text. -/
theorem Grows.mirrors {ms : List ScopeMark} {t : ScopeTree} {n : Nat} (h : Grows .empty 0 ms t n)
    (horder : (declarations ms).Pairwise fun d d' => d.ident.range.stop ≤ d'.ident.range.start) :
    t.Mirrors ms := by
  have hsize := h.size_eq
  have hempty : ScopeTree.empty.size = 1 := rfl
  have hglobal := h.get?_of_get? (k := .global) (s := ⟨.global, none, none, []⟩) rfl
  have hopened := h.get?_of_opened
  have hids := h.scopeIds
  exact {
    ids := by rw [h.ids, List.range_eq_range']
    order := horder
    placed := h.placed
    entries := by
      intro k s hs
      by_cases hk : k = .global
      · subst hk
        rw [hglobal, Option.some.injEq] at hs
        rw [← hs, List.nil_append]
      · -- every other scope was opened by a node, as their numbers are consecutive
        have hmem : k.index ∈ (openings ms).map (·.id.index) := by
          have hlt := ScopeTree.index_lt_of_get? hs
          have hpos : k.index ≠ 0 := fun hzero => hk (congrArg ScopeId.mk hzero)
          rw [hids, List.mem_range'_1]
          omega
        obtain ⟨o, ho, hindex⟩ := List.mem_map.1 hmem
        obtain rfl : o.id = k := congrArg ScopeId.mk hindex
        rw [hopened o ho, Option.some.injEq] at hs
        rw [← hs]
    global := ⟨_, hglobal⟩
    owners := by rw [hids, hsize, hempty, Nat.add_sub_cancel_left]
    scopes := fun o ho => ⟨_, hopened o ho⟩
    nested := h.nested
    bodies := h.bodies }

end Rill
