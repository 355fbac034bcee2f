import Rill.Proofs.Lockstep

/-!
# Output under a limit

A sink with a limit refuses what would pass it, and a run that is refused stops. Such a run
is looked at beside the run of the same step whose output has no limit, where the two may
cut the values that they write in different ways. As long as all fits they go the same way
(`Env.Fits`) : what is written for some values does not depend on the cutting as a whole
(`Cutting.join_flatMap_pieces`). The first value that does not fit stops the run under the
limit (`Env.Overfull`), at a piece that depends on the cutting, with a beginning of the
other run's output accepted.
-/

namespace Rill

/-! ## Sinks -/

/-- The cutting does not show in the text as a whole. -/
theorem Cutting.join_flatMap_pieces (c : Cutting) (args : List Value) :
    String.join (args.flatMap c.pieces) = String.join (args.map Value.display) := by
  induction args with
  | nil => rfl
  | cons v rest ih =>
    rw [List.flatMap_cons, String.join_append, c.join_pieces, ih, List.map_cons, String.join_cons]

namespace Sink

/-- A sink that refuses nothing but what passes its limit, if it has one. -/
structure Plain (limit : Option Nat) (s : Sink) : Prop where
  limit_eq : s.limit = limit
  accepts (written : List String) (piece : String) : s.refuses written piece = none

variable {s : Sink} {limit : Nat}

theorem Plain.take {limit : Option Nat} (h : s.Plain limit) (piece : String) :
    (s.take piece).Plain limit := by
  unfold Sink.take
  split
  · exact h
  · exact ⟨h.limit_eq, h.accepts⟩

/-- A piece is taken if there is room for it. -/
theorem Plain.refusal?_of_le {limit : Option Nat} {piece : String} (h : s.Plain limit)
    (hroom : ∀ n ∈ limit, (s.text ++ piece).utf8ByteSize ≤ n) : s.refusal? piece = none := by
  have hhas : s.hasRoom piece.utf8ByteSize = true := by
    unfold hasRoom
    rw [h.limit_eq]
    cases limit with
    | none => rfl
    | some n => simpa [String.utf8ByteSize_append] using hroom n rfl
  unfold refusal?
  rw [if_pos hhas, h.accepts, ite_self]

/-- A piece that there is no room for is refused. -/
theorem Plain.refusal?_of_lt {piece : String} (h : s.Plain (some limit))
    (htext : s.text.utf8ByteSize ≤ limit) (hlt : limit < (s.text ++ piece).utf8ByteSize) :
    s.refusal? piece = some ⟨"sink full", 0⟩ := by
  rw [String.utf8ByteSize_append] at hlt
  have hroom : ¬s.text.utf8ByteSize + piece.utf8ByteSize ≤ limit := Nat.not_le.2 hlt
  have hempty : piece.isEmpty = false := by
    rw [Bool.eq_false_iff, ne_eq, String.isEmpty_iff]
    rintro rfl
    exact hroom htext
  simp [refusal?, hasRoom, h.limit_eq, hroom, hempty]

/-- What fits is taken as a whole. -/
theorem Plain.writeAll_of_le {limit : Option Nat} {pieces : List String} (h : s.Plain limit)
    (hroom : ∀ n ∈ limit, (s.text ++ String.join pieces).utf8ByteSize ≤ n) :
    ∃ s', s.writeAll pieces = (none, s') ∧ s'.Plain limit ∧
      s'.text = s.text ++ String.join pieces := by
  induction pieces generalizing s with
  | nil => exact ⟨s, rfl, h, by rw [String.join_nil, String.append_empty]⟩
  | cons piece rest ih =>
    rw [String.join_cons, ← String.append_assoc] at hroom ⊢
    have hpiece : ∀ n ∈ limit, (s.text ++ piece).utf8ByteSize ≤ n := by
      intro n hn
      have hle := hroom n hn
      rw [String.utf8ByteSize_append] at hle
      omega
    rw [writeAll, h.refusal?_of_le hpiece]
    rw [← s.text_take piece] at hroom ⊢
    exact ih (h.take piece) hroom

/-- Of what does not fit a beginning is taken, which fits. -/
theorem Plain.writeAll_of_lt {pieces : List String} (h : s.Plain (some limit))
    (htext : s.text.utf8ByteSize ≤ limit)
    (hlt : limit < (s.text ++ String.join pieces).utf8ByteSize) :
    ∃ s', s.writeAll pieces = (some "sink full", s') ∧
      ∃ more, s.text ++ String.join pieces = s'.text ++ more := by
  induction pieces generalizing s with
  | nil =>
    rw [String.join_nil, String.append_empty] at hlt
    exact absurd htext (Nat.not_le.2 hlt)
  | cons piece rest ih =>
    rw [String.join_cons, ← String.append_assoc] at hlt ⊢
    by_cases hpiece : (s.text ++ piece).utf8ByteSize ≤ limit
    · have hroom : ∀ n ∈ some limit, (s.text ++ piece).utf8ByteSize ≤ n := by
        rintro n ⟨⟩
        exact hpiece
      rw [writeAll, h.refusal?_of_le hroom]
      rw [← s.text_take piece] at hpiece hlt ⊢
      exact ih (h.take piece) hpiece hlt
    · rw [writeAll, h.refusal?_of_lt htext (Nat.lt_of_not_le hpiece)]
      exact ⟨_, rfl, piece ++ String.join rest, String.append_assoc⟩

end Sink

/-! ## Two runs -/

namespace Env

/-- An environment in which nothing is written yet, with a way of cutting values and a limit
of the output. -/
def writing (env : Env) (cutting : Cutting) (limit : Option Nat) : Env :=
  { env with sink := { limit := limit }, cutting := cutting }

/-- Two environments that differ in how output is written : the first one takes all, the second one
has a limit, which the output so far has not passed. -/
structure Fits (limit : Nat) (env env' : Env) : Prop where
  stack : env'.stack = env.stack
  callDepth : env'.callDepth = env.callDepth
  maxCallDepth : env'.maxCallDepth = env.maxCallDepth
  unlimited : env.sink.Plain none
  limited : env'.sink.Plain (some limit)
  text : env'.sink.text = env.sink.text
  size_le : env.sink.text.utf8ByteSize ≤ limit

/-- A run whose output does not fit has stopped because of that, with a beginning of the
output written. -/
structure Overfull (limit : Nat) (env : Env) (why : Stop) (env' : Env) : Prop where
  why : why = .failed ⟨.output "sink full", .unknown⟩
  precedes : env'.sink.Precedes env.sink
  lt_size : limit < env.sink.text.utf8ByteSize

theorem fits_writing (env : Env) (c c' : Cutting) (limit : Nat) :
    Fits limit (env.writing c none) (env.writing c' (some limit)) :=
  ⟨rfl, rfl, rfl, ⟨rfl, fun _ _ => rfl⟩, ⟨rfl, fun _ _ => rfl⟩, rfl, Nat.zero_le limit⟩

theorem Fits.withStack {limit : Nat} {env env' : Env} (h : Fits limit env env') (stack : Stack) :
    Fits limit { env with stack := stack } { env' with stack := stack } :=
  { h with stack := rfl }

theorem Overfull.later {limit : Nat} {env env' later : Env} {why : Stop}
    (h : Overfull limit env why env') (hlater : env.sink.Precedes later.sink) (depth : Nat) :
    Overfull limit later why { env' with callDepth := depth } := by
  refine ⟨h.why, h.precedes.trans hlater, Nat.lt_of_lt_of_le h.lt_size ?_⟩
  obtain ⟨more, hmore⟩ := hlater
  rw [hmore, String.utf8ByteSize_append]
  exact Nat.le_add_right _ _

end Env

namespace Eval

variable {limit : Nat}

theorem fits_modifyStack (f : Stack → Stack) :
    Aligned (Env.Fits limit) (Env.Overfull limit) (modifyStack f) := by
  intro env env' h
  have hrun : modifyStack f env' = .ok () { env' with stack := f env.stack } := h.stack ▸ rfl
  rw [hrun]
  exact .ok (h.withStack _)

theorem fits_add (name : String) (symbol : Symbol) (range : Range) :
    Aligned (Env.Fits limit) (Env.Overfull limit) (add name symbol range) := by
  intro env env' h
  unfold add
  rw [h.stack]
  cases env.stack.add? name symbol with
  | some stack => exact .ok (h.withStack stack)
  | none => exact .error h

theorem fits_find? (name : String) :
    Aligned (Env.Fits limit) (Env.Overfull limit) (find? name) := by
  intro env env' h
  have hfind : find? name env' = .ok (env.stack.find? name) env' := h.stack ▸ rfl
  rw [hfind]
  exact .ok h

/-- The two runs write the same text, unless it does not fit. -/
theorem fits_print (args : List Value) :
    Aligned (Env.Fits limit) (Env.Overfull limit) (print args) := by
  intro env env' h
  have hjoin (c : Cutting) : String.join (args.flatMap c.pieces ++ ["\n"]) =
      String.join (args.map Value.display) ++ "\n" := by
    rw [String.join_append, c.join_flatMap_pieces, String.join_cons, String.join_nil,
      String.append_empty]
  have hopen : ∀ n ∈ (none : Option Nat),
      (env.sink.text ++ String.join (args.flatMap env.cutting.pieces ++ ["\n"])).utf8ByteSize ≤ n :=
    fun _ hn => (by cases hn)
  obtain ⟨sink, hall, hplain, htext⟩ := h.unlimited.writeAll_of_le hopen
  unfold print write
  rw [hall]
  rw [hjoin] at htext
  -- Whether all fits does not depend on the cutting; how much of it is taken, if it does not fit,
  -- does.
  have htext' : env'.sink.text ++
      String.join (args.flatMap env'.cutting.pieces ++ ["\n"]) = sink.text := by
    rw [h.text, hjoin, htext]
  by_cases hle : sink.text.utf8ByteSize ≤ limit
  · have hroom : ∀ n ∈ some limit,
        (env'.sink.text ++ String.join (args.flatMap env'.cutting.pieces ++ ["\n"])).utf8ByteSize ≤
          n := by
      rintro n ⟨⟩
      rw [htext']
      exact hle
    obtain ⟨sink', hall', hplain', hsame⟩ := h.limited.writeAll_of_le hroom
    rw [hall']
    exact .ok ⟨h.stack, h.callDepth, h.maxCallDepth, hplain, hplain', hsame.trans htext', hle⟩
  · have hlt := Nat.lt_of_not_le hle
    have hsize : env'.sink.text.utf8ByteSize ≤ limit := by
      rw [h.text]
      exact h.size_le
    obtain ⟨sink', hwrite, more, hmore⟩ := h.limited.writeAll_of_lt hsize (htext' ▸ hlt)
    rw [hwrite]
    exact .cut ⟨rfl, ⟨more, htext'.symm.trans hmore⟩, hlt⟩

theorem lockstep_fits (limit : Nat) : Lockstep (Env.Fits limit) (Env.Overfull limit) where
  push := fits_modifyStack _
  pop := fits_modifyStack _
  add := fits_add
  find? := fits_find?
  set _ _ := fits_modifyStack _
  print := fits_print
  callDepth h := h.callDepth
  maxCallDepth h := h.maxCallDepth
  atDepth _ h := { h with callDepth := rfl }
  cut depth _ h hlater := h.later hlater.sink depth

/-! ## Runs -/

/-- What a run gives under a limit of its output, beside what it gives without one : it has
written a beginning; it gives the same and leaves the same frames if all fits, and otherwise fails
because of the output. -/
structure OnlyTruncated (limit : Nat) (r r' : EStateM.Result Stop Env Value) : Prop where
  output : (left r').sink.Precedes (left r).sink
  fits : (left r).sink.text.utf8ByteSize ≤ limit →
    answer r' = answer r ∧ (left r').sink.text = (left r).sink.text ∧
      (left r').stack = (left r).stack
  full : limit < (left r).sink.text.utf8ByteSize →
    ∃ reason, answer r' = .error (.failed ⟨.output reason, .unknown⟩)

theorem Beside.onlyTruncated {r r' : EStateM.Result Stop Env Value}
    (h : Beside (Env.Fits limit) (Env.Overfull limit) r r') : OnlyTruncated limit r r' := by
  cases h with
  | ok h | error h =>
    exact ⟨⟨"", h.text.symm.trans String.append_empty.symm⟩, fun _ => ⟨rfl, h.text, h.stack⟩,
      fun hlt => absurd h.size_le (Nat.not_le.2 hlt)⟩
  | cut h =>
    have hwhy := h.why
    subst hwhy
    exact ⟨h.precedes, fun hle => absurd h.lt_size (Nat.not_lt.2 hle), fun _ => ⟨"sink full", rfl⟩⟩

/-- What comes to an end without a limit does so under one. -/
theorem exists_ends_writing {run : Nat → Eval Value} (hcomposed : ∀ n, Composed (run n))
    (hlasts : ∀ {n m}, n ≤ m → Lasts (run n) (run m)) (env : Env) (limit : Nat) (c c' : Cutting)
    {r : EStateM.Result Stop Env Value} (h : Ends run (env.writing c none) r) :
    ∃ r', Ends run (env.writing c' (some limit)) r' ∧ OnlyTruncated limit r r' := by
  obtain ⟨hr, n, hn⟩ := h
  have hbeside := (hcomposed n).aligned (lockstep_fits limit) (env.fits_writing c c' limit)
  rw [hn n (Nat.le_refl n)] at hbeside
  refine ⟨_, ends_of_lasts hlasts rfl fun env' hend => ?_, hbeside.onlyTruncated⟩
  rw [hend] at hbeside
  cases hbeside with
  | error _ => exact hr _ rfl
  | cut h => cases h.why

/-- A sink with a limit truncates the output and changes nothing else, however values are cut. -/
theorem sink_only_truncates (env : Env) (limit : Nat) (c c' : Cutting) :
    (∀ (p : Program) r, Ends (fun n => p.run n) (env.writing c none) r →
      ∃ r', Ends (fun n => p.run n) (env.writing c' (some limit)) r' ∧ OnlyTruncated limit r r') ∧
    ∀ (s : Script) r, Ends (fun n => s.run n) (env.writing c none) r →
      ∃ r', Ends (fun n => s.run n) (env.writing c' (some limit)) r' ∧ OnlyTruncated limit r r' :=
  ⟨fun p _ => exists_ends_writing (composed_program · p) (lasts_program · p) env limit c c',
    fun s _ =>
      exists_ends_writing (composed_outerStmts · s.stmts) (lasts_outerStmts · s.stmts) env
        limit c c'⟩

/-- Values that are written in one run each. -/
def wholeValues : Cutting :=
  ⟨fun v => [v.display], fun _ => String.join_cons.trans String.append_empty, fun _ _ => rfl⟩

/-- A script that writes six bytes where four are allowed, and a program that writes as many
bytes as are allowed. -/
theorem sink_only_truncates_number :
    let say (l : Literal) : Stmt :=
      .expr (.call (.name ⟨"print", .unknown⟩) [.literal l .unknown] .unknown) .unknown
    let script : Script := ⟨[say (.string "ab"), say (.int (-1))], .unknown, .initial, .empty⟩
    let give : Stmt := .return (some (.literal (.int 5) .unknown)) .unknown
    let main : Func :=
      ⟨⟨0⟩, ⟨"main", .unknown⟩, none, [], ⟨[say (.int (-1)), give], ⟨1⟩, .unknown⟩, ⟨0⟩,
        ⟨1⟩, .unknown⟩
    let program : Program := ⟨[.func main], .unknown, .initial, .empty⟩
    let frame : Frame := ⟨[("main", ⟨.func, .function (.user main)⟩)]⟩
    let written : Env := { sink := { written := ["\n", "-1", "\n", "ab"] }, cutting := wholeValues }
    let called : Env :=
      { stack := ⟨[], frame⟩, sink := { written := ["\n", "-1"] }, cutting := wholeValues }
    (Ends (fun n => script.run n) (Env.writing {} wholeValues none) (.ok .null written) ∧
      4 < written.sink.text.utf8ByteSize ∧
      ∃ r, Ends (fun n => script.run n) (Env.writing {} .standard (some 4)) r ∧
        OnlyTruncated 4 (.ok .null written) r) ∧
    (Ends (fun n => program.run n) (Env.writing {} wholeValues none) (.ok (.int 5) called) ∧
      called.sink.text.utf8ByteSize ≤ 3 ∧
      ∃ r, Ends (fun n => program.run n) (Env.writing {} .standard (some 3)) r ∧
        OnlyTruncated 3 (.ok (.int 5) called) r) := by
  intro say script give main program frame written called
  have hscript :
      Ends (fun n => script.run n) (Env.writing {} wholeValues none) (.ok .null written) := by
    have hfirst : outerStmt 20 (say (.string "ab")) (Env.writing {} wholeValues none) =
      .ok .normal { sink := { written := ["\n", "ab"] }, cutting := wholeValues } := rfl
    exact ends_of_lasts (n := 20) (lasts_outerStmts · script.stmts) ((bind_of_ok hfirst).trans rfl)
      fun _ h => (by cases h)
  have hprogram :
      Ends (fun n => program.run n) (Env.writing {} wholeValues none) (.ok (.int 5) called) :=
    ends_of_lasts (n := 20) (lasts_program · program) rfl fun _ h => (by cases h)
  exact ⟨⟨hscript, by decide, (sink_only_truncates {} 4 wholeValues .standard).2 script _ hscript⟩,
    ⟨hprogram, by decide, (sink_only_truncates {} 3 wholeValues .standard).1 program _ hprogram⟩⟩

end Eval

end Rill
