import Rill.Proofs.Closure

/-!
# What steps of parsing keep

Most steps of parsing take tokens and enter names, and do nothing else to the parser. Whatever
moving on and entering names keep (`Steady`) is kept by all these steps, in particular by every
expression. A property comes with what it says of errors : a step that fails does so at the current
token or at a fault that follows. A statement also enters declarations and scopes and changes the
scope that the parser is in, so it keeps what looks at neither (`Unscoped`).

`Parse.Keeps I E act p` says of a step that it keeps `I` or fails with an error of which `E` holds.
This is a closed property of steps (`Steady.tokenClosed`, `Unscoped.closed`), so programs and
scripts have it too.
-/

namespace Rill

/-- A property of parsers that moving on and entering names keep, and one of errors that it
entails. A parser does not move on to a lexical fault : it fails with it, and at the current token
only with other faults. -/
structure Steady (I : Parser → Prop) (E : ParseError → Prop) : Prop where
  moved : ∀ {p}, I p → (∀ e, p.upcoming.remaining.head? ≠ some (.error e)) → I p.moved
  names : ∀ {p} names, I p → I { p with names := names }
  place : ∀ {p fault}, I p → fault.isLexical = false → E ⟨fault, p.place⟩
  fault : ∀ {p e}, I p → p.upcoming.remaining.head? = some (.error e) → E e.toParseError

/-- A steady property that looks neither at scopes nor at declarations. -/
structure Unscoped (I : Parser → Prop) (E : ParseError → Prop) : Prop extends Steady I E where
  entered : ∀ {p} scope scopes nextDecl, I p →
    I { p with scope := scope, scopes := scopes, nextDecl := nextDecl }

namespace Parse

variable {α β : Type} {I : Parser → Prop} {E : ParseError → Prop} {p : Parser} {act : Parse α}

/-- If `I` holds of the parser, then also after the step, or the step fails with an
error of which `E` holds. -/
def Keeps (I : Parser → Prop) (E : ParseError → Prop) (act : Parse α) (p : Parser) : Prop :=
  I p → match act p with
    | .ok _ q => I q
    | .error e _ => E e

/-- Steps in sequence keep a property if each of them does. -/
theorem Keeps.bind {f : α → Parse β} (h : act.Keeps I E p) (hf : ∀ a q, (f a).Keeps I E q) :
    (act >>= f).Keeps I E p := by
  intro hp
  have hact := h hp
  cases hrun : act p with
  | ok a q =>
    rw [hrun] at hact
    have hnext := hf a q hact
    simpa [Bind.bind, EStateM.bind, hrun] using hnext
  | error e q =>
    rw [hrun] at hact
    simpa [Bind.bind, EStateM.bind, hrun] using hact

/-- If a step keeps a property and succeeds, the property still holds. -/
theorem Keeps.ok {a : α} {q : Parser} (h : act.Keeps I E p) (hp : I p) (hrun : act p = .ok a q) :
    I q := by
  have hact := h hp
  rwa [hrun] at hact

/-- A parser moves on to a token or fails with the fault that comes next. -/
theorem keeps_advance (hI : Steady I E) : advance.Keeps I E p := by
  intro hp
  rw [advance_eq]
  cases hnext : p.upcoming.remaining.head? with
  | none => exact hI.moved hp (by simp [hnext])
  | some i =>
    cases i with
    | ok t => exact hI.moved hp (by simp [hnext])
    | error e => exact hI.fault hp hnext

/-- A step that is made in another scope keeps what looks at no scope. -/
theorem keeps_within (hI : Unscoped I E) (scope : ScopeId) (h : ∀ q, act.Keeps I E q) :
    (Parse.within scope act).Keeps I E p := by
  intro hp
  have hact := h { p with scope := scope } (hI.entered scope p.scopes p.nextDecl hp)
  unfold Parse.within
  cases hrun : act { p with scope := scope } with
  | ok a q =>
    rw [hrun] at hact
    exact hI.entered p.scope q.scopes q.nextDecl hact
  | error e q =>
    rw [hrun] at hact
    exact hact

end Parse

variable {I : Parser → Prop} {E : ParseError → Prop}

/-- To keep a steady property is closed under the moves that touch no scope. -/
theorem Steady.tokenClosed (hI : Steady I E) :
    Parse.TokenClosed fun act => ∀ p, act.Keeps I E p where
  pure _ _ hp := hp
  bind h hf p := (h p).bind hf
  check h hf p hp := by
    refine (h p).bind (fun a q => ?_) hp
    rcases hf p a with hkeeps | ⟨fault, hfault, hthrow⟩
    · exact hkeeps q
    · rw [hthrow]
      exact fun _ => hI.place hp hfault
  advance _ := Parse.keeps_advance hI
  name _ _ hp := hI.names _ hp

/-- To keep a property that looks at no scope is closed under all moves. -/
theorem Unscoped.closed (hI : Unscoped I E) :
    Parse.Closed fun _ {_} act => ∀ p, act.Keeps I E p where
  tokenClosed _ := hI.toSteady.tokenClosed
  declare _ p hp := hI.entered p.scope _ _ hp
  within h _ := Parse.keeps_within hI _ h
  opening _ _ _ h p hp :=
    Parse.keeps_within (p := { p with scopes := _ }) hI _ (h _) (hI.entered p.scope _ p.nextDecl hp)

end Rill
