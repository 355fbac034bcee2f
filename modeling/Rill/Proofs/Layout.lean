import Rill.Proofs.ProgramAgreement
import Rill.Proofs.RunRelabel
import Rill.Proofs.Wording
import Rill.Run.Outcome

/-!
# Layout does not matter

Blanks, line breaks and comments separate tokens and do nothing else. Two texts whose other
tokens agree are read as the same tree up to ranges, or refused for the same reason, and running
them writes the same output and ends alike (`Buffer.eq_up_to_layout`). Only places differ : the
ranges of nodes and of errors.

The parser gives trees whose bare forms agree (`Buffer.program_bare_of_words`), and a run of a
tree is a run of its bare form up to labels (`Program.commutes_run`), so both runs are compared
with that of the bare form.
-/

namespace Rill

/-! ## What is told of a text and of its run -/

/-- What can be told of an item besides its place : the lexeme of a token, the variant and
the wording of a fault. -/
def Item.wording : Item → Except (Nat × String) Lexeme
  | .ok t => .ok t.lexeme
  | .error e => .error (e.fault.ctorIdx, e.fault.message)

/-- Buffers whose tokens agree, apart from those that carry no meaning. -/
def Buffer.SameWording (b b' : Buffer) : Prop :=
  (Filter.ofItems Filter.trivia b.items).toList.map Item.wording =
    (Filter.ofItems Filter.trivia b'.items).toList.map Item.wording

instance (b b' : Buffer) : Decidable (b.SameWording b') :=
  inferInstanceAs (Decidable (_ = _))

/-- An error without its place. -/
def Error.bare : Error → Error
  | .lex e => .lex ⟨e.fault, .unknown⟩
  | .parse e => .parse ⟨e.fault, .unknown⟩
  | .runtime e => .runtime ⟨e.fault, .unknown⟩
  | .source e => .source e
  | .config e => .config e
  | .unreadable path reason => .unreadable path reason

/-- How a run ends, as far as it is told : with the text of its value, or with an error
and its wording. -/
def Ending.told : Ending → Option (Except (Error × String) String)
  | .value v => some (.ok v.display)
  | .failed e => some (.error (e.bare, e.message))
  | .exhausted => none

/-- Outcomes with the same output and the same told ending. -/
def Outcome.Alike (o o' : Outcome) : Prop :=
  o.output = o'.output ∧ o.ending.told = o'.ending.told

/-! ## Words -/

theorem Item.content_eq_of_wording {i i' : Item} (h : i.wording = i'.wording) :
    i.content = i'.content := by
  cases i with
  | ok t =>
    cases i' with
    | ok t' => simpa [wording, content] using h
    | error e' => simp [wording] at h
  | error e =>
    cases i' with
    | ok t' => simp [wording] at h
    | error e' =>
      simp only [wording, Except.error.injEq, Prod.mk.injEq] at h
      rw [content, content, LexFault.eq_of_message h.1 h.2]

theorem Item.map_content_of_wording {items items' : List Item}
    (h : items.map wording = items'.map wording) :
    items.map content = items'.map content := by
  induction items generalizing items' with
  | nil =>
    obtain rfl : items' = [] := by simpa using h.symm
    rfl
  | cons i rest ih =>
    cases items' with
    | nil => simp at h
    | cons i' rest' =>
      obtain ⟨hi, hrest⟩ := List.cons.inj h
      rw [List.map_cons, List.map_cons, content_eq_of_wording hi, ih hrest]

/-! ## Runs -/

namespace Eval

variable {act act' : Eval Value}

/-- A step and one that does the same up to ranges have outcomes that are told alike. -/
theorem Commutes.outcome_alike (h : Commutes .bare (Value.relabel .bare) act act') {env : Env}
    (henv : env.relabel .bare = env) : (act.outcome env).Alike (act'.outcome env) := by
  have hrun := h env
  rw [henv] at hrun
  unfold outcome
  rw [hrun]
  cases act env with
  | ok v env' => exact ⟨rfl, by simp [relabelResult, Ending.told]⟩
  | error stop env' =>
    cases stop with
    | failed e => exact ⟨rfl, rfl⟩
    | exhausted => exact ⟨rfl, rfl⟩

/-- Two steps that do the same as a third up to ranges. -/
theorem Commutes.outcomes_alike {act₀ : Eval Value}
    (h : Commutes .bare (Value.relabel .bare) act act₀)
    (h' : Commutes .bare (Value.relabel .bare) act' act₀) (config : Config) (sink : Sink) :
    (act.outcome (.start config sink)).Alike (act'.outcome (.start config sink)) := by
  have henv : (Env.start config sink).relabel .bare = .start config sink := rfl
  obtain ⟨houtput, hending⟩ := h.outcome_alike henv
  obtain ⟨houtput', hending'⟩ := h'.outcome_alike henv
  exact ⟨houtput.trans houtput'.symm, hending.trans hending'.symm⟩

end Eval

namespace Buffer

variable {b b' : Buffer}

/-- Two readings that give the same tree up to `key`, or the same fault, have outcomes that are told
alike, if a tree runs as its `key` does up to ranges. -/
theorem run_alike {α : Type} {key : α → α} {run : α → Eval Value} {r r' : Except ParseError α}
    (h : (r.map key).mapError ParseError.fault = (r'.map key).mapError ParseError.fault)
    (hrun : ∀ a, Eval.Commutes .bare (Value.relabel .bare) (run a) (run (key a))) (config : Config)
    (sink : Sink) :
    Outcome.Alike
      (match r.map run with
        | .error e => ⟨.failed (.parse e), sink.text⟩
        | .ok act => act.outcome (.start config sink))
      (match r'.map run with
        | .error e => ⟨.failed (.parse e), sink.text⟩
        | .ok act => act.outcome (.start config sink)) := by
  cases r with
  | error e =>
    cases r' with
    | ok a' => simp [Except.map, Except.mapError] at h
    | error e' =>
      have hfault : e.fault = e'.fault := by simpa [Except.map, Except.mapError] using h
      exact ⟨rfl, by simp [Except.map, Ending.told, Error.bare, Error.message, hfault]⟩
  | ok a =>
    cases r' with
    | error e' => simp [Except.map, Except.mapError] at h
    | ok a' =>
      have hkey : key a = key a' := by simpa [Except.map, Except.mapError] using h
      have hrun' := hrun a'
      rw [← hkey] at hrun'
      exact (hrun a).outcomes_alike hrun' config sink

/-- Layout never changes meaning : texts that agree in all tokens but blanks, line breaks and
comments are read as the same tree up to ranges, or refused for the same reason; and running them
gives the same output and the same value, or the same error up to its place. -/
theorem eq_up_to_layout (h : b.SameWording b') :
    (b.program.map Program.bare).mapError ParseError.fault =
        (b'.program.map Program.bare).mapError ParseError.fault ∧
      (b.script.map Script.bare).mapError ParseError.fault =
        (b'.script.map Script.bare).mapError ParseError.fault ∧
      ∀ mode config sink steps,
        (b.run mode config sink steps).Alike (b'.run mode config sink steps) := by
  have hwords : b.words = b'.words := Item.map_content_of_wording h
  have hprogram := program_bare_of_words hwords
  have hscript := script_bare_of_words hwords
  refine ⟨hprogram, hscript, fun mode config sink steps => ?_⟩
  cases mode with
  | program => exact run_alike hprogram (fun p => Program.commutes_run rfl steps rfl) config sink
  | script => exact run_alike hscript (fun s => Script.commutes_run rfl steps rfl) config sink

/-- A division by zero that fails at another place, after the same output. -/
theorem eq_up_to_layout_division :
    (anonymous "print(1);2/0;").SameWording
      (anonymous "print ( 1 ) ; // one\n2 /* two */\r\n / 0;\n") ∧
      ∀ config sink steps,
        ((anonymous "print(1);2/0;").run .script config sink steps).Alike
          ((anonymous "print ( 1 ) ; // one\n2 /* two */\r\n / 0;\n").run .script config sink
            steps) := by
  have hwording : (anonymous "print(1);2/0;").SameWording
      (anonymous "print ( 1 ) ; // one\n2 /* two */\r\n / 0;\n") := by decide +kernel
  exact ⟨hwording, (eq_up_to_layout hwording).2.2 .script⟩

end Buffer

end Rill
