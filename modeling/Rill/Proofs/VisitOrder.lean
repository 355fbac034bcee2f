import Rill.Proofs.Names

/-!
# The order of a visit

A visit of a tree reports names and types in the order in which they are written, with one
exception : a declaration reports its name before its type, and the type stands before the name.
`Mention.inSourceOrder` exchanges the two, and then the places of the names increase
(`Recounts.idents_inSourceOrder`, `Serves.pairwise_before`). The places of a visit as it is increase
only where no declaration has the name of a type before its own (`Recounts.pairwise_before_iff`).
-/

namespace Rill

/-- A name that starts before another. -/
def Ident.Before (i j : Ident) : Prop := i.range.start < j.range.start

instance (i j : Ident) : Decidable (i.Before j) :=
  inferInstanceAs (Decidable (i.range.start < j.range.start))

/-- Mentions with each type moved before the name that it was mentioned after. -/
def Mention.inSourceOrder : List Mention → List Mention
  | .ident i :: .type t :: rest => .type t :: .ident i :: inSourceOrder rest
  | m :: rest => m :: inSourceOrder rest
  | [] => []

namespace Recounts

variable {ms : List Mention} {rs : List Role}

/-- A type is mentioned only after a name. -/
theorem head?_ne_type (h : Recounts ms rs) (t : TypeRef) : ms.head? ≠ some (.type t) := by
  induction h with
  | nil => simp
  | plain _ ih => exact ih
  | word text _ ih => exact ih
  | named type i _ _ => simp

theorem inSourceOrder_cons (h : Recounts ms rs) (i : Ident) :
    Mention.inSourceOrder (.ident i :: ms) = .ident i :: Mention.inSourceOrder ms := by
  cases ms with
  | nil => simp [Mention.inSourceOrder]
  | cons m rest =>
    cases m with
    | ident j => rw [Mention.inSourceOrder]; simp
    | type t => exact absurd rfl (h.head?_ne_type t)

/-- With each type before the name of its declaration, the names come in the order of the roles. -/
theorem idents_inSourceOrder (h : Recounts ms rs) :
    (Mention.inSourceOrder ms).filterMap Mention.ident? = Role.idents rs := by
  induction h with
  | nil => rfl
  | plain _ ih => exact ih
  | word text _ ih => exact ih
  | named type i hrest ih =>
    cases type with
    | none =>
      have hcons := hrest.inSourceOrder_cons i
      simpa [TypeRef.mentions?, hcons, Mention.ident?, TypeRef.roles] using ih
    | some type =>
      cases type with
      | builtin type => exact congrArg (i :: ·) ih
      | named j => exact congrArg (j :: i :: ·) ih

/-- Where the names among the roles stand in order, those that are mentioned do unless
one of them is a type. -/
theorem pairwise_before_iff (h : Recounts ms rs) (hord : (Role.idents rs).Pairwise Ident.Before) :
    (ms.filterMap Mention.ident?).Pairwise Ident.Before ↔ ∀ i, .type (.named i) ∉ ms := by
  induction h with
  | nil => simp
  | plain _ ih => exact ih hord
  | word text _ ih => exact ih hord
  | @named ms rs type i hrest ih =>
    have hcons : (i :: Role.idents rs).Pairwise Ident.Before →
        ((i :: ms.filterMap Mention.ident?).Pairwise Ident.Before ↔
          ∀ j, .type (.named j) ∉ ms) := by
      intro hord
      obtain ⟨hi, htail⟩ := List.pairwise_cons.1 hord
      have hfirst : ∀ j ∈ ms.filterMap Mention.ident?, i.Before j := fun j hj =>
        hi j (hrest.visits.idents.mem_iff.1 hj)
      rw [List.pairwise_cons, and_iff_right hfirst, ih htail]
    cases type with
    | none => exact (hcons hord).trans (by simp [TypeRef.mentions?])
    | some type =>
      cases type with
      | builtin type => exact (hcons hord).trans (by simp [TypeRef.mentions?])
      | named j =>
        -- The type `j` stands before the name `i`, which is mentioned first.
        have hji : j.Before i := (List.pairwise_cons.1 hord).1 i List.mem_cons_self
        constructor
        · intro hpair
          have hij : i.Before j := (List.pairwise_cons.1 hpair).1 j List.mem_cons_self
          exact absurd hij (lt_asymm hji)
        · intro hnone
          exact absurd (by simp [TypeRef.mentions?]) (hnone j)

end Recounts

/-- The names among the roles of tokens in order stand in order. -/
theorem Serves.pairwise_before {ts : List Token} {rs : List Role} (h : Serves ts rs)
    (hord : InOrder ts) :
    (Role.idents rs).Pairwise Ident.Before := by
  have hnames : InOrder ((Role.idents rs).map Ident.token) :=
    hord.sublist (h.freeIdentifiers_eq ▸ h.freeIdentifiers_sublist)
  refine List.Pairwise.imp_of_mem ?_ (List.pairwise_map.1 hnames.apart)
  intro i j hi _ hle
  have hlt : i.range.start < i.range.stop := hnames.filled i.token (List.mem_map_of_mem hi)
  exact hlt.trans_le hle

namespace Buffer

variable {b : Buffer} {s : Script}

/-- A visit of a script reports its names in the order in which they stand, except that a
declaration reports its name before its type. With each type moved before the name of its
declaration, every name starts after the one before it. As they are reported, they do so exactly if
no declaration has a type that is named by an identifier. -/
theorem visited_in_order (h : b.script = .ok s) :
    ((Mention.inSourceOrder (Stmt.mentionsAll s.stmts)).filterMap Mention.ident?).Pairwise
      Ident.Before ∧
      (s.reported.Pairwise Ident.Before ↔ ∀ i, .type (.named i) ∉ Stmt.mentionsAll s.stmts) := by
  obtain ⟨ts, hts, hread, hwf⟩ := allReadFrom_of_script h
  have hord := inOrder_of_tokens hts
  have hbefore := (Stmt.serves_of_allReadFrom hread hord).pairwise_before hord
  have hrecounts := Stmt.recounts_all s.stmts hwf
  exact ⟨hrecounts.idents_inSourceOrder ▸ hbefore, hrecounts.pairwise_before_iff hbefore⟩

/-- A function with a type, a parameter with a type and one without, and a variable with a type in
its body. -/
theorem visited_in_order_declarations : ∃ s,
    (anonymous "func R f(T a, b) \x7b var U c = a.b; \x7d f(c);").script = .ok s ∧
      s.reported.map Ident.name = ["f", "R", "a", "T", "b", "c", "U", "a", "b", "f", "c"] ∧
      ((Mention.inSourceOrder (Stmt.mentionsAll s.stmts)).filterMap Mention.ident?).map Ident.name =
        ["R", "f", "T", "a", "b", "U", "c", "a", "b", "f", "c"] ∧
      ((Mention.inSourceOrder (Stmt.mentionsAll s.stmts)).filterMap Mention.ident?).Pairwise
        Ident.Before ∧
      (s.reported.Pairwise Ident.Before ↔ ∀ i, .type (.named i) ∉ Stmt.mentionsAll s.stmts) := by
  have hread : ((anonymous "func R f(T a, b) \x7b var U c = a.b; \x7d f(c);").script.map fun s =>
      (s.reported.map Ident.name,
        ((Mention.inSourceOrder (Stmt.mentionsAll s.stmts)).filterMap Mention.ident?).map
          Ident.name)).toOption =
      some (["f", "R", "a", "T", "b", "c", "U", "a", "b", "f", "c"],
        ["R", "f", "T", "a", "b", "U", "c", "a", "b", "f", "c"]) := by decide +kernel
  cases hs : (anonymous "func R f(T a, b) \x7b var U c = a.b; \x7d f(c);").script with
  | error e => simp [hs, Except.map, Except.toOption] at hread
  | ok s =>
    simp only [hs, Except.map, Except.toOption, Option.some.injEq, Prod.mk.injEq] at hread
    exact ⟨s, rfl, hread.1, hread.2, visited_in_order hs⟩

/-- The type of a variable stands before its name and is reported after it. -/
theorem visited_out_of_order : ∃ s, (anonymous "var T x;").script = .ok s ∧
    s.reported = [⟨"x", ⟨⟨1, 7⟩, ⟨1, 8⟩⟩⟩, ⟨"T", ⟨⟨1, 5⟩, ⟨1, 6⟩⟩⟩] ∧
    ¬s.reported.Pairwise Ident.Before := by
  have hread : ((anonymous "var T x;").script.map Script.reported).toOption =
      some [⟨"x", ⟨⟨1, 7⟩, ⟨1, 8⟩⟩⟩, ⟨"T", ⟨⟨1, 5⟩, ⟨1, 6⟩⟩⟩] := by decide +kernel
  cases hs : (anonymous "var T x;").script with
  | error e => simp [hs, Except.map, Except.toOption] at hread
  | ok s =>
    simp only [hs, Except.map, Except.toOption, Option.some.injEq] at hread
    refine ⟨s, rfl, hread, ?_⟩
    rw [hread]
    decide

end Buffer

end Rill
