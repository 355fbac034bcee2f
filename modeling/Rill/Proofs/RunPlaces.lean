import Rill.Diagnostic
import Rill.Proofs.Conduct
import Rill.Proofs.ParsePlaces

/-!
# Where runs fail

The range of a runtime error comes from the tree : it is that of the node whose evaluation has
failed, or of a declaration that is bound twice. So whatever holds of the ranges of all nodes of a
tree holds of the ranges of its errors. Functions are values, so the trees of the functions in the
frames count too; the other values hold no ranges. This is a contract (`Contract.blaming`), which
programs and scripts keep to (`Eval.meets_program`, `Eval.meets_outerStmts`).

Every node of a text covers a piece of the text (`Buffer.covers_of_exact`), and so does every parse
error. So an error of a run points at real text, unless its fault has no place
(`Buffer.errors_located`).
-/

namespace Rill

/-- The errors of a run have ranges of which `P` holds, as have the functions that it may call. -/
def Contract.blaming (P : Range → Prop) : Contract where
  node n := P n.range
  func f := (Node.decl (.func f)).All fun n => P n.range
  jump _ := True
  nodes _ hf := hf
  jumps _ _ _ _ := trivial

theorem RuntimeError.Meets.placed_blaming {P : Range → Prop} {e : RuntimeError}
    (h : e.Meets (.blaming P)) : e.Placed P := by
  have hplaced := h.placed
  unfold RuntimeError.Placed at hplaced ⊢
  split at hplaced
  next hplace =>
    obtain ⟨n, hn, hrange⟩ := hplaced
    rw [if_pos hplace, ← hrange]
    exact hn
  next hplace =>
    rw [if_neg hplace]
    exact hplaced

/-! ## Texts -/

namespace Buffer

variable {b : Buffer} {ts us : List Token}

theorem covers_of_tokens (h : b.tokens = .ok ts) : ∀ t ∈ ts, b.Covers t.range := by
  intro t ht
  have hmem : Except.ok t ∈ ts.map (Except.ok (ε := LexError)) := List.mem_map_of_mem ht
  rw [tokens_eq_ok, Filter.remaining_ofItems] at h
  exact b.covers_of_mem_items (.ok t) (List.mem_filter.1 (h ▸ hmem)).1

/-- The range across some tokens covers all that stands from the first to the last. -/
theorem covers_across (h : b.tokens = .ok ts) (hsub : us.Sublist ts) (hne : us ≠ []) :
    b.Covers (Range.across us) := by
  have hcovers := covers_of_tokens h
  have hle := (Range.across_filled ((inOrder_of_tokens h).sublist hsub) hne).2.le
  rw [Range.across_eq hne] at hle ⊢
  exact (hcovers _ (hsub.subset (List.head_mem hne))).through
    (hcovers _ (hsub.subset (List.getLast_mem hne))) hle

/-- The nodes of a text cover pieces of it. -/
theorem covers_of_exact (h : b.tokens = .ok ts) {members : List Node} {range : Range}
    (hexact : ExactRanges ts members range) :
    ∀ n ∈ members, n.All fun m => b.Covers m.range := by
  intro n hn m hm
  obtain ⟨us, hus, hparts, hrange⟩ := (hexact.nodes n hn m hm).built
  rw [hrange]
  exact covers_across h ((m.counted_sublist us).trans hus.sublist) (Node.counted_ne_nil hparts)

end Buffer

/-- The error with which a run ends. -/
def Ending.error? : Ending → Option Error
  | .failed e => some e
  | _ => none

/-- The error is one that nothing in the text is to blame for : there is no function to start with,
or the output is refused. -/
def Error.isPlaceless : Error → Bool
  | .runtime ⟨.noMainFunction, _⟩ | .runtime ⟨.output _, _⟩ => true
  | _ => false

/-- What the diagnostic of an error shows of a text : a piece of it, which is what the range of the
error holds, with a label, and the start of the range in the message. -/
structure Error.ShownIn (e : Error) (b : Buffer) : Prop where
  known : e.range.isUnknown = false
  span : ∃ before mid rest, b.chars = before ++ (mid ++ rest) ∧
    (Diagnostic.ofError e b).span = some ⟨byteLength before, byteLength mid⟩ ∧
    byteLength before + byteLength mid ≤ b.size ∧ b.slice? e.range = some (String.ofList mid)
  label : (Diagnostic.ofError e b).label = some e.label
  message : (Diagnostic.ofError e b).message =
    s!"{e.stage.text} error at {e.range.start.line}:{e.range.start.column}: {e.message}"

/-- An error is shown in a text, unless nothing in the text is to blame for it. -/
def Error.LocatedIn (e : Error) (b : Buffer) : Prop :=
  if e.isPlaceless then
    (Diagnostic.ofError e b).span = none ∧ (Diagnostic.ofError e b).label = none ∧
      (Diagnostic.ofError e b).hasSnippet = false
  else e.ShownIn b

namespace Error

variable {e : Error} {b : Buffer}

theorem shownIn_of_covers (h : b.Covers e.range) : e.ShownIn b := by
  have hknown := Range.not_isUnknown h.known
  obtain ⟨before, mid, rest, hchars, hrange⟩ := h
  have hstop : b.chars = before ++ mid ++ rest := by rw [hchars, List.append_assoc]
  have hspan : b.span? e.range = some ⟨byteLength before, byteLength mid⟩ := by
    rw [Buffer.span?, hknown, hrange]
    simp [Buffer.offset?_past hchars, Buffer.offset?_past hstop, byteLength_append]
  have hsize : byteLength before + byteLength mid ≤ b.size := by
    rw [Buffer.size, hchars, byteLength_append, byteLength_append]
    omega
  exact {
    known := hknown
    span := ⟨before, mid, rest, hchars, hspan, hsize, by rw [hrange, Buffer.slice?_past hchars]⟩
    label := by simp [Diagnostic.ofError, hspan]
    message := by
      have hword : " error at " = " error" ++ " at " := rfl
      simp only [Diagnostic.ofError, hspan, Location.text, Option.isSome_some, if_true, toString,
        String.append_assoc]
      rw [hword, String.append_assoc] }

theorem locatedIn_of_placed {e : RuntimeError} (h : e.Placed b.Covers) :
    LocatedIn (.runtime e) b := by
  obtain ⟨fault, range⟩ := e
  unfold LocatedIn
  cases hplace : fault.hasPlace with
  | true =>
    rw [RuntimeError.Placed, if_pos hplace] at h
    have hblamed : isPlaceless (.runtime ⟨fault, range⟩) = false := by
      cases fault <;> first | rfl | cases hplace
    rw [hblamed]
    exact shownIn_of_covers h
  | false =>
    have hspan : b.span? range = none := by
      rw [RuntimeError.Placed, if_neg (by simp [hplace])] at h
      obtain rfl : range = .unknown := h
      rfl
    have hblameless : isPlaceless (.runtime ⟨fault, range⟩) = true := by
      cases fault <;> first | rfl | cases hplace
    rw [hblameless]
    simp [Diagnostic.ofError, Diagnostic.hasSnippet, Error.range, hspan]

end Error

/-- The error of an evaluation that blames ranges of a text is located in the text. -/
theorem Eval.Meets.locatedIn {b : Buffer} {act : Eval Value} {post : Value → Prop}
    (h : Meets (.blaming b.Covers) post act) {config : Config} {sink : Sink} {e : Error}
    (hending : (act.outcome (.start config sink)).ending = .failed e) : e.LocatedIn b := by
  unfold outcome at hending
  cases hact : act (.start config sink) with
  | ok v env => simp [hact] at hending
  | error stop env =>
    have hstop := (h.of_error (Env.funcs_start config sink) hact).1
    cases stop with
    | exhausted => simp [hact] at hending
    | failed error =>
      obtain rfl : Error.runtime error = e := by simpa [hact] using hending
      exact Error.locatedIn_of_placed hstop.placed_blaming

/-- Every reported error points at real text : whatever a text fails with as a program or as a
script, while it is read or while it runs, the diagnostic of the error shows the piece of the text
that the range of the error holds, unless nothing in the text is to blame. -/
theorem Buffer.errors_located (b : Buffer) (mode : Mode) (config : Config) (sink : Sink)
    (steps : Nat) (e : Error) (h : (b.run mode config sink steps).ending = .failed e) :
    e.LocatedIn b := by
  have hparse : ∀ error : ParseError, b.Covers error.range → (Error.parse error).LocatedIn b :=
    fun error herror => Error.shownIn_of_covers herror
  cases mode with
  | program =>
    cases hread : b.program with
    | error error =>
      obtain rfl : Error.parse error = e := by simpa [run, action, hread, Except.map] using h
      exact hparse error (covers_of_program hread)
    | ok u =>
      obtain ⟨ts, hts, hexact⟩ := exactRanges_of_program hread
      have hall := List.forall_mem_map.1 (covers_of_exact hts hexact)
      have hrun : ((u.run steps).outcome (.start config sink)).ending = .failed e := by
        simpa [run, action, hread, Except.map] using h
      exact (Eval.meets_program steps hall (fun f hf => hall _ hf) trivial).locatedIn hrun
  | script =>
    cases hread : b.script with
    | error error =>
      obtain rfl : Error.parse error = e := by simpa [run, action, hread, Except.map] using h
      exact hparse error (covers_of_script hread)
    | ok s =>
      obtain ⟨ts, hts, hexact⟩ := exactRanges_of_script hread
      have hall := List.forall_mem_map.1 (covers_of_exact hts hexact)
      have hrun : ((s.run steps).outcome (.start config sink)).ending = .failed e := by
        simpa [run, action, hread, Except.map] using h
      have hmeets := Eval.meets_outerStmts (c := .blaming b.Covers) steps hall
        (fun f range hf => (hall _ hf).part (by simp [Node.parts, Part.ofStmt])) fun _ _ => trivial
      exact hmeets.locatedIn hrun

/-- A division by zero on the second line, after a character of two bytes. -/
theorem Buffer.errors_located_division :
    let b := anonymous "// ü\nfunc main() \x7b return 1 / 0; \x7d"
    let e : Error := .runtime ⟨.divisionByZero, ⟨⟨2, 22⟩, ⟨2, 27⟩⟩⟩
    (b.run .program {} {} 20).ending = .failed e ∧ (Diagnostic.ofError e b).span = some ⟨27, 5⟩ ∧
      e.LocatedIn b := by
  intro b e
  have herror : (b.run .program {} {} 20).ending.error? = some e := by decide +kernel
  have hending : (b.run .program {} {} 20).ending = .failed e := by
    generalize (b.run .program {} {} 20).ending = ending at herror
    cases ending <;> simp_all [Ending.error?]
  exact ⟨hending, by decide +kernel, errors_located b .program {} {} 20 e hending⟩

end Rill
