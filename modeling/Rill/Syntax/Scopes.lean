/-!
# Declaration scopes

Every declaration of a program is entered in a scope, and scopes form a tree : the global one, one
for each function, class and namespace, and one for each block and `for` statement. The tree is an
array of scopes that name their parents.

A removed declaration leaves its name behind, so a lookup still stops at the scope from which it was
removed and does not go on to an outer declaration of the same name.
-/

namespace Rill

/-- The number of a declaration. -/
structure DeclId where
  index : Nat
deriving DecidableEq, Repr, Inhabited

/-- The number of a scope. -/
structure ScopeId where
  index : Nat
deriving DecidableEq, Repr, Inhabited

/-- The scope around everything. -/
def ScopeId.global : ScopeId := ⟨0⟩

/-- The two kinds of named groups of declarations. -/
inductive GroupKind where
  | classGroup
  | namespaceGroup
deriving DecidableEq, Repr

/-- What a scope belongs to. -/
inductive ScopeKind where
  | global
  | function
  | group (kind : GroupKind)
  | block
deriving DecidableEq, Repr

/-- A name in a scope, with its declaration unless that was removed. -/
structure Entry where
  name : String
  decl : Option DeclId
deriving DecidableEq, Repr

/-- One scope. -/
structure Scope where
  kind : ScopeKind
  parent : Option ScopeId
  owner : Option DeclId
  entries : List Entry
deriving DecidableEq, Repr

namespace Scope

/-- The declarations that were not removed. -/
def live (s : Scope) : List DeclId :=
  s.entries.filterMap (·.decl)

/-- What a scope says about a name : nothing if the name was never entered, else the first
declaration of that name that is left, if there is one. -/
def lookup (s : Scope) (name : String) : Option (Option DeclId) :=
  match s.entries.filter (·.name == name) with
  | [] => none
  | named => some (named.findSome? (·.decl))

/-- Enters a declaration. -/
def add (s : Scope) (name : String) (decl : DeclId) : Scope :=
  { s with entries := s.entries ++ [⟨name, some decl⟩] }

/-- Takes out the first entry of a declaration and keeps its name. -/
def eraseFirst (decl : DeclId) : List Entry → List Entry
  | [] => []
  | e :: rest =>
    if e.decl = some decl then { e with decl := none } :: rest else e :: eraseFirst decl rest

/-- Removes a declaration. -/
def remove (s : Scope) (decl : DeclId) : Scope :=
  { s with entries := eraseFirst decl s.entries }

end Scope

/-- All scopes of a program, by number. -/
structure ScopeTree where
  scopes : Array Scope
deriving DecidableEq, Repr

namespace ScopeTree

/-- The tree that holds the global scope only. -/
def empty : ScopeTree :=
  ⟨#[⟨.global, none, none, []⟩]⟩

variable (t : ScopeTree)

/-- The number of scopes. -/
def size : Nat := t.scopes.size

/-- The scope with a number. -/
def get? (id : ScopeId) : Option Scope := t.scopes[id.index]?

/-- Opens a new scope. -/
def push (kind : ScopeKind) (parent : ScopeId) (owner : Option DeclId) : ScopeId × ScopeTree :=
  (⟨t.scopes.size⟩, ⟨t.scopes.push ⟨kind, some parent, owner, []⟩⟩)

/-- The parent of a scope. -/
def parent? (id : ScopeId) : Option ScopeId := do (← t.get? id).parent

/-- Enters a declaration in a scope. -/
def add (id : ScopeId) (name : String) (decl : DeclId) : ScopeTree :=
  ⟨t.scopes.modify id.index (·.add name decl)⟩

/-- Removes a declaration from a scope, and says whether it was there. -/
def remove (id : ScopeId) (decl : DeclId) : Bool × ScopeTree :=
  match t.get? id with
  | none => (false, t)
  | some s => (s.live.contains decl, ⟨t.scopes.modify id.index (·.remove decl)⟩)

/-- A scope and at most `n` scopes around it, from the inside out. -/
def chain : Nat → ScopeId → List ScopeId
  | 0, id => [id]
  | n + 1, id =>
    match t.parent? id with
    | none => [id]
    | some p => id :: chain n p

/-- A scope and all scopes around it, from the inside out. -/
def ancestors (id : ScopeId) : List ScopeId :=
  t.chain t.size id

/-- The first of some scopes that says anything about a name. A number without a scope
ends the search. -/
def search (name : String) : List ScopeId → Option DeclId
  | [] => none
  | id :: rest =>
    match t.get? id with
    | none => none
    | some s =>
      match s.lookup name with
      | some found => found
      | none => search name rest

/-- The declaration that a name has in a scope. -/
def find? (id : ScopeId) (name : String) : Option DeclId :=
  t.search name (t.ancestors id)

/-- The scopes with a given parent. -/
def children (id : ScopeId) : List ScopeId :=
  (List.range t.size).map ScopeId.mk |>.filter fun c => t.parent? c = some id

end ScopeTree

end Rill
