import Rill.Proofs.Recovery
import Rill.Proofs.RunRelabel

/-!
# Labels that no run reads

Of the labels of a tree a run reads the ranges only, for its errors. Type annotations and the
numbers of declarations and scopes are carried along, in trees and in the functions that a run holds
as values, and never looked at. So two trees that are the same without them (`Relabel.erase`) run
alike : both do what the erased tree does in the erased environment (`Program.commutes_run`,
`Script.commutes_run`), up to the labels of the functions in values and frames.
-/

namespace Rill

/-- Forgets type annotations and the numbers of declarations and scopes. -/
def Relabel.erase : Relabel where
  range := id
  decl := fun _ => ⟨0⟩
  scope := fun _ => .global
  type := fun _ => none

namespace Eval

/-- Two runs that give the same error or the same value up to erased labels, write the same and
leave the same frames up to erased labels. -/
structure SameErased (r r' : EStateM.Result Stop Env Value) : Prop where
  answer : (answer r).map (Value.relabel .erase) = (answer r').map (Value.relabel .erase)
  output : (left r).sink = (left r').sink
  frames : (left r).stack.relabel .erase = (left r').stack.relabel .erase

/-- Ranges are not erased, so an error stays as it is. -/
theorem answer_relabelResult (r : EStateM.Result Stop Env Value) :
    answer (relabelResult .erase (Value.relabel .erase) r) =
      (answer r).map (Value.relabel .erase) := by
  cases r with
  | ok v env => rfl
  | error stop env => cases stop <;> rfl

theorem left_relabelResult (f : Relabel) (r : EStateM.Result Stop Env Value) :
    left (relabelResult f (Value.relabel f) r) = (left r).relabel f := by
  cases r <;> rfl

/-- Runs that do what one run does in the erased environment give the same. -/
theorem Commutes.sameErased {act act' erased : Eval Value} {env env' : Env}
    (h : Commutes .erase (Value.relabel .erase) act erased)
    (h' : Commutes .erase (Value.relabel .erase) act' erased)
    (henv : env.relabel .erase = env'.relabel .erase) : SameErased (act env) (act' env') := by
  have heq : relabelResult .erase (Value.relabel .erase) (act env) =
      relabelResult .erase (Value.relabel .erase) (act' env') := by rw [← h env, ← h' env', henv]
  have hanswer := congrArg answer heq
  have hleft := congrArg left heq
  rw [answer_relabelResult, answer_relabelResult] at hanswer
  rw [left_relabelResult, left_relabelResult] at hleft
  exact ⟨hanswer, congrArg (·.sink) hleft, congrArg (·.stack) hleft⟩

/-- Programs and scripts that are the same up to erased labels run alike, from one environment or
from two that are the same up to erased labels. -/
theorem erased_run_alike {env env' : Env} (henv : env.relabel .erase = env'.relabel .erase)
    (n : Nat) :
    (∀ p p' : Program, Decl.relabelAll .erase p.decls = Decl.relabelAll .erase p'.decls →
      SameErased (p.run n env) (p'.run n env')) ∧
    ∀ s s' : Script, Stmt.relabelAll .erase s.stmts = Stmt.relabelAll .erase s'.stmts →
      SameErased (s.run n env) (s'.run n env') := by
  refine ⟨fun p p' h => ?_, fun s s' h => ?_⟩
  · let erased : Program := { p with decls := Decl.relabelAll .erase p.decls }
    have hrun : Commutes .erase (Value.relabel .erase) (p.run n) (erased.run n) :=
      Program.commutes_run rfl n rfl
    have hrun' : Commutes .erase (Value.relabel .erase) (p'.run n) (erased.run n) :=
      Program.commutes_run rfl n h
    exact hrun.sameErased hrun' henv
  · let erased : Script := { s with stmts := Stmt.relabelAll .erase s.stmts }
    have hrun : Commutes .erase (Value.relabel .erase) (s.run n) (erased.run n) :=
      Script.commutes_run rfl n rfl
    have hrun' : Commutes .erase (Value.relabel .erase) (s'.run n) (erased.run n) :=
      Script.commutes_run rfl n h
    exact hrun.sameErased hrun' henv

/-- A function that returns itself, with and without a type and under two numbers, in a program; and
in a script that returns its variable, which has a type in one of them. -/
theorem erased_run_alike_function :
    let main (type : Option TypeRef) (id : DeclId) : Func :=
      ⟨id, ⟨"main", .unknown⟩, type, [],
        ⟨[.return (some (.name ⟨"main", .unknown⟩)) .unknown], ⟨id.index⟩, .unknown⟩, ⟨0⟩,
          ⟨id.index⟩, .unknown⟩
    let typed := main (some (.builtin .int)) ⟨1⟩
    let untyped := main none ⟨2⟩
    let program (f : Func) : Program := ⟨[.func f], .unknown, .initial, .empty⟩
    let x (type : Option TypeRef) : Stmt :=
      .decl
        (.var ⟨⟨0⟩, ⟨"x", .unknown⟩, type, some (.literal (.int 5) .unknown), false, ⟨0⟩, .unknown⟩)
          .unknown
    let script (type : Option TypeRef) : Script :=
      ⟨[x type, .return (some (.name ⟨"x", .unknown⟩)) .unknown], .unknown, .initial, .empty⟩
    (Decl.relabelAll .erase (program typed).decls = Decl.relabelAll .erase (program untyped).decls ∧
      answer ((program typed).run 20 {}) = .ok (.function (.user typed)) ∧
      answer ((program untyped).run 20 {}) = .ok (.function (.user untyped)) ∧
      SameErased ((program typed).run 20 {}) ((program untyped).run 20 {})) ∧
    (Stmt.relabelAll .erase (script (some (.builtin .int))).stmts =
      Stmt.relabelAll .erase (script none).stmts ∧
      SameErased ((script (some (.builtin .int))).run 20 {}) ((script none).run 20 {})) := by
  intro main typed untyped program x script
  have henv : Env.relabel .erase {} = Env.relabel .erase {} := rfl
  have halike := erased_run_alike henv 20
  exact ⟨⟨rfl, rfl, rfl, halike.1 (program typed) (program untyped) rfl⟩,
    ⟨rfl, halike.2 (script (some (.builtin .int))) (script none) rfl⟩⟩

end Eval

end Rill
