import Rill.Proofs.Extent
import Rill.Proofs.Modes
import Rill.Proofs.Progress

/-!
# Programs are scripts of declarations

Reading a program and reading a script go through the same statements. A `Reading` says how far
statements can be read : those that are complete, each with the token it starts at, and the error
that ends the reading, if one does. It decides what becomes of the script (`Parse.reading_of_ok`,
`Parse.reading_of_error`) and of the program (`Parse.declarations_of_refused`,
`Parse.declarations_of_accepted`) : the program stops at the first complete statement that is no
declaration, even if a later one cannot be read, and otherwise does as the script does.
-/

namespace Rill

/-- How far statements can be read. -/
structure Reading where
  /-- The statements that are complete, with the token that each starts at. -/
  complete : List (Token × Stmt)
  /-- The error that ends the reading before the end of the text. -/
  error : Option ParseError

/-- A statement that is complete before others. -/
def Reading.after (r : Reading) (t : Token) (s : Stmt) : Reading :=
  { r with complete := (t, s) :: r.complete }

namespace Parse

/-- Reads statements up to the end of the tokens or the first error. -/
def reading (stmt : Parse Stmt) : Nat → Parser → Reading
  | 0, p => ⟨[], some ⟨.stalled, p.place⟩⟩
  | n + 1, p =>
    match p.current, stmt p with
    | none, _ => ⟨[], none⟩
    | some _, .error e _ => ⟨[], some e⟩
    | some t, .ok s q => (reading stmt n q).after t s

end Parse

/-- Reads the statements of a text. -/
def Buffer.reading (b : Buffer) : Reading :=
  match Parser.start b with
  | .error e => ⟨[], some e⟩
  | .ok p => Parse.reading (Parse.statement .standard p.fuel) p.fuel p

theorem Stmt.eq_of_decl? {s : Stmt} {d : Decl} (h : s.decl? = some d) :
    ∃ range, s = .decl d range := by
  cases s with
  | decl d' range =>
    obtain rfl := Option.some.inj h
    exact ⟨range, rfl⟩
  | _ => cases h

namespace Parse

/-! ## Steps of the loops -/

section

variable {α β : Type} {act : Parse α} {f : α → Parse β} {g : α → β} {n : Nat} {p q : Parser} {a : α}
  {e : ParseError}

theorem bind_of_ok (h : act p = .ok a q) : (act >>= f) p = f a q := by
  simp only [Bind.bind, EStateM.bind, h]

theorem bind_of_error (h : act p = .error e q) : (act >>= f) p = .error e q := by
  simp only [Bind.bind, EStateM.bind, h]

theorem map_of_ok (h : act p = .ok a q) : (g <$> act) p = .ok (g a) q := by
  simp only [Functor.map, EStateM.map, h]

theorem map_of_error (h : act p = .error e q) : (g <$> act) p = .error e q := by
  simp only [Functor.map, EStateM.map, h]

theorem eval_of_ok (h : act p = .ok a q) : act.eval p = .ok a := by rw [eval, h]

theorem eval_of_error (h : act p = .error e q) : act.eval p = .error e := by rw [eval, h]

theorem itemsUntil_of_none (h : p.current = none) :
    itemsUntil Parser.isEmpty act (n + 1) p = .ok [] p :=
  itemsUntil_of_stop (by simp [Parser.isEmpty, h])

/-- Before a token, the loop takes an item and goes on. -/
theorem itemsUntil_of_some {t : Token} (h : p.current = some t) :
    itemsUntil Parser.isEmpty act (n + 1) p =
    (act >>= fun x => (x :: ·) <$> itemsUntil Parser.isEmpty act n) p := by
  have hempty : ¬p.isEmpty := by simp [Parser.isEmpty, h]
  change (if p.isEmpty then _ else _ : Parse (List α)) p = _
  rw [if_neg hempty]
  rfl

end

variable {stmt : Parse Stmt} {n : Nat} {p q : Parser} {s : Stmt} {t : Token} {e : ParseError}

/-- A statement that is no declaration is refused at the token it starts at. -/
theorem declaration_of_other (hp : p.current = some t) (h : stmt p = .ok s q)
    (hs : s.decl? = none) :
    declaration stmt p = .error ⟨.expectedDeclaration t.label, t.range⟩ q := by
  have hrun : declaration stmt p = (stmt >>= _) p := bind_of_ok (q := p) rfl
  have hplace : p.found = t.label ∧ p.place = t.range := by simp [Parser.found, Parser.place, hp]
  rw [hrun, bind_of_ok h, ← hplace.1, ← hplace.2]
  cases s with
  | decl d range => cases hs
  | _ => rfl

theorem declaration_of_error (h : stmt p = .error e q) : declaration stmt p = .error e q := by
  have hrun : declaration stmt p = (stmt >>= _) p := bind_of_ok (q := p) rfl
  rw [hrun, bind_of_error h]

/-! ## The loops along a reading -/

/-- A script has the statements of a reading that ends without an error. -/
theorem reading_of_ok {ss : List Stmt} (h : itemsUntil Parser.isEmpty stmt n p = .ok ss q) :
    (reading stmt n p).error = none ∧ (reading stmt n p).complete.map Prod.snd = ss := by
  fun_induction reading stmt n p generalizing ss with
  | case1 p => cases h
  | case2 n p hp =>
    rw [itemsUntil_of_none hp] at h
    obtain ⟨rfl, rfl⟩ := EStateM.Result.ok.inj h
    exact ⟨rfl, rfl⟩
  | case3 n p t e r hstmt hp =>
    rw [itemsUntil_of_some hp, bind_of_error hstmt] at h
    cases h
  | case4 n p t s r hstmt hp ih =>
    rw [itemsUntil_of_some hp, bind_of_ok hstmt] at h
    cases hrest : itemsUntil Parser.isEmpty stmt n r with
    | error e r' => cases (map_of_error hrest).symm.trans h
    | ok rest r' =>
      obtain ⟨rfl, rfl⟩ := EStateM.Result.ok.inj ((map_of_ok hrest).symm.trans h)
      obtain ⟨herror, hcomplete⟩ := ih hrest
      exact ⟨herror, congrArg (s :: ·) hcomplete⟩

/-- A script fails with the error of its reading. -/
theorem reading_of_error (h : itemsUntil Parser.isEmpty stmt n p = .error e q) :
    (reading stmt n p).error = some e := by
  fun_induction reading stmt n p with
  | case1 p =>
    obtain ⟨rfl, rfl⟩ := EStateM.Result.error.inj h
    rfl
  | case2 n p hp => cases (itemsUntil_of_none hp).symm.trans h
  | case3 n p t e' r hstmt hp =>
    rw [itemsUntil_of_some hp, bind_of_error hstmt] at h
    obtain ⟨rfl, rfl⟩ := EStateM.Result.error.inj h
    rfl
  | case4 n p t s r hstmt hp ih =>
    rw [itemsUntil_of_some hp, bind_of_ok hstmt] at h
    cases hrest : itemsUntil Parser.isEmpty stmt n r with
    | ok rest r' => cases (map_of_ok hrest).symm.trans h
    | error e' r' =>
      obtain ⟨rfl, rfl⟩ := EStateM.Result.error.inj ((map_of_error hrest).symm.trans h)
      exact ih hrest

/-- If all complete statements are declarations, a program does as the script does. -/
theorem declarations_of_accepted (h : ∀ x ∈ (reading stmt n p).complete, x.2.decl?.isSome) :
    itemsUntil Parser.isEmpty (declaration stmt) n p =
      (List.filterMap Stmt.decl? <$> itemsUntil Parser.isEmpty stmt n) p := by
  fun_induction reading stmt n p with
  | case1 p => rfl
  | case2 n p hp =>
    rw [itemsUntil_of_none hp, map_of_ok (itemsUntil_of_none hp), List.filterMap_nil]
  | case3 n p t e r hstmt hp =>
    rw [itemsUntil_of_some hp, bind_of_error (declaration_of_error hstmt)]
    exact (map_of_error ((itemsUntil_of_some hp).trans (bind_of_error hstmt))).symm
  | case4 n p t s r hstmt hp ih =>
    obtain ⟨hs, hrest⟩ := List.forall_mem_cons.1 h
    obtain ⟨d, hd⟩ := Option.isSome_iff_exists.1 hs
    obtain ⟨range, rfl⟩ := Stmt.eq_of_decl? hd
    have hscript : itemsUntil Parser.isEmpty stmt (n + 1) p =
        ((.decl d range :: ·) <$> itemsUntil _ stmt n) r :=
      (itemsUntil_of_some hp).trans (bind_of_ok hstmt)
    rw [itemsUntil_of_some hp, bind_of_ok (declaration_of_ok hstmt)]
    cases hstmts : itemsUntil Parser.isEmpty stmt n r with
    | ok rest r' =>
      rw [map_of_ok ((ih hrest).trans (map_of_ok hstmts)),
        map_of_ok (hscript.trans (map_of_ok hstmts))]
      rfl
    | error e r' =>
      rw [map_of_error ((ih hrest).trans (map_of_error hstmts)),
        map_of_error (hscript.trans (map_of_error hstmts))]

/-- A program is refused at the first complete statement that is no declaration. -/
theorem declarations_of_refused {front back : List (Token × Stmt)}
    (h : (reading stmt n p).complete = front ++ (t, s) :: back)
    (hfront : ∀ x ∈ front, x.2.decl?.isSome) (hs : s.decl? = none) :
    ∃ q, itemsUntil Parser.isEmpty (declaration stmt) n p =
      .error ⟨.expectedDeclaration t.label, t.range⟩ q := by
  fun_induction reading stmt n p generalizing front with
  | case1 p => simp at h
  | case2 n p hp => simp at h
  | case3 n p t' e r hstmt hp => simp at h
  | case4 n p t' s' r hstmt hp ih =>
    cases front with
    | nil =>
      obtain ⟨⟨rfl, rfl⟩, rfl⟩ : (t' = t ∧ s' = s) ∧ _ := by simpa [Reading.after] using h
      rw [itemsUntil_of_some hp, bind_of_error (declaration_of_other hp hstmt hs)]
      exact ⟨r, rfl⟩
    | cons x front =>
      obtain ⟨rfl, hrest⟩ := List.cons.inj h
      obtain ⟨hs', hfront'⟩ := List.forall_mem_cons.1 hfront
      obtain ⟨d, hd⟩ := Option.isSome_iff_exists.1 hs'
      obtain ⟨range, rfl⟩ := Stmt.eq_of_decl? hd
      obtain ⟨q, hq⟩ := ih hrest hfront'
      rw [itemsUntil_of_some hp, bind_of_ok (declaration_of_ok hstmt)]
      exact ⟨q, map_of_error hq⟩

/-- The complete statements were read one after another, each from the token it starts at on. -/
theorem exists_tokens_of_complete {k : Nat} {front back : List (Token × Stmt)}
    (h : (reading (statement .standard k) n p).complete = front ++ (t, s) :: back) :
    ∃ before rest after, p.ahead = (before ++ t :: rest).map .ok ++ after ∧
      Stmt.AllReadFrom (front.map Prod.snd) before ∧ s.ReadFrom (t :: rest) := by
  fun_induction reading (statement .standard k) n p generalizing front with
  | case1 p => simp at h
  | case2 n p hp => simp at h
  | case3 n p t' e r hstmt hp => simp at h
  | case4 n p t' s' r hstmt hp ih =>
    obtain ⟨ts, hahead, hread, -⟩ := takes_statement k p s' r hstmt
    obtain ⟨t'', us, rfl⟩ := List.exists_cons_of_ne_nil hread.ne_nil
    obtain rfl : t' = t'' := by
      have hhead : p.ahead.head? = some (.ok t') := by simp [Parser.ahead, hp]
      simpa [hahead] using hhead.symm
    cases front with
    | nil =>
      obtain ⟨⟨rfl, rfl⟩, rfl⟩ : (t' = t ∧ s' = s) ∧ _ := by simpa [Reading.after] using h
      exact ⟨[], us, r.ahead, hahead, rfl, hread⟩
    | cons x front =>
      obtain ⟨rfl, hrest⟩ := List.cons.inj h
      obtain ⟨before, rest, after, hr, hbefore, hs⟩ := ih hrest
      refine ⟨t' :: us ++ before, rest, after, ?_, ⟨_, _, rfl, hread, hbefore⟩, hs⟩
      rw [hahead, hr]
      simp

/-! ## Texts -/

theorem script_of_ok {ss : List Stmt}
    (h : itemsUntil Parser.isEmpty (statement .standard p.fuel) p.fuel p = .ok ss q) :
    script .standard p = .ok ⟨ss, .hull (ss.map Stmt.range), q.names, q.scopes⟩ q :=
  (bind_of_ok (q := p) rfl).trans (bind_of_ok h)

theorem script_of_error
    (h : itemsUntil Parser.isEmpty (statement .standard p.fuel) p.fuel p = .error e q) :
    script .standard p = .error e q :=
  (bind_of_ok (q := p) rfl).trans (bind_of_error h)

theorem program_of_ok {ds : List Decl}
    (h : itemsUntil Parser.isEmpty (declaration (statement .standard p.fuel)) p.fuel p = .ok ds q) :
    program .standard p = .ok ⟨ds, .hull (ds.map Decl.range), q.names, q.scopes⟩ q :=
  (bind_of_ok (q := p) rfl).trans (bind_of_ok h)

theorem program_of_error
    (h : itemsUntil Parser.isEmpty (declaration (statement .standard p.fuel)) p.fuel p =
      .error e q) :
    program .standard p = .error e q :=
  (bind_of_ok (q := p) rfl).trans (bind_of_error h)

end Parse

/-- The declarations of a script, as a program. -/
def Script.declarations (s : Script) : Program :=
  ⟨s.stmts.filterMap Stmt.decl?, s.range, s.names, s.scopes⟩

/-- The declarations that statements consist of, if all of them are declarations. -/
theorem Stmt.map_decl?_eq_iff {ss : List Stmt} {ds : List Decl} : ss.map Stmt.decl? = ds.map some ↔
    (∀ s ∈ ss, s.decl?.isSome) ∧ ss.filterMap Stmt.decl? = ds := by
  constructor
  · intro h
    refine ⟨fun s hs => ?_, ?_⟩
    · obtain ⟨d, -, hd⟩ := List.mem_map.1 (h ▸ List.mem_map_of_mem hs)
      rw [← hd, Option.isSome_some]
    · simpa [List.filterMap_map] using congrArg (List.filterMap id) h
  · rintro ⟨hall, rfl⟩
    rw [List.map_filterMap_some_eq_filter_map_isSome,
      List.filter_eq_self.2 (List.forall_mem_map.2 hall)]

/-- A declaration and the statement that it makes have one range. -/
theorem Stmt.ranges_of_allReadFrom {ss : List Stmt} {ts : List Token}
    (hread : Stmt.AllReadFrom ss ts) (hdecls : ∀ s ∈ ss, s.decl?.isSome) :
    (ss.filterMap Stmt.decl?).map Decl.range = ss.map Stmt.range := by
  induction ss generalizing ts with
  | nil => rfl
  | cons s ss ih =>
    obtain ⟨us, vs, -, hs, hss⟩ := hread
    obtain ⟨hd, hds⟩ := List.forall_mem_cons.1 hdecls
    obtain ⟨d, hd⟩ := Option.isSome_iff_exists.1 hd
    obtain ⟨range, rfl⟩ := Stmt.eq_of_decl? hd
    obtain ⟨-, rfl⟩ := hs
    exact congrArg (d.range :: ·) (ih hss hds)

namespace Buffer

variable {b : Buffer}

/-- The script of a text has the statements of its reading. -/
theorem reading_of_script {s : Script} (h : b.script = .ok s) :
    b.reading.error = none ∧ s.stmts = b.reading.complete.map Prod.snd := by
  rw [Buffer.script] at h
  rw [Buffer.reading]
  cases hstart : Parser.start b with
  | error e => simp [hstart, Bind.bind, Except.bind] at h
  | ok p =>
    rw [hstart] at h
    cases hstmts : Parse.itemsUntil Parser.isEmpty (Parse.statement .standard p.fuel) p.fuel p with
    | error e q => cases (Parse.eval_of_error (Parse.script_of_error hstmts)).symm.trans h
    | ok ss q =>
      obtain rfl := Except.ok.inj ((Parse.eval_of_ok (Parse.script_of_ok hstmts)).symm.trans h)
      obtain ⟨herror, hcomplete⟩ := Parse.reading_of_ok hstmts
      exact ⟨herror, hcomplete.symm⟩

/-- A text that is no script fails with the error of its reading. -/
theorem reading_of_script_error {e : ParseError} (h : b.script = .error e) :
    b.reading.error = some e := by
  rw [Buffer.script] at h
  rw [Buffer.reading]
  cases hstart : Parser.start b with
  | error e' =>
    rw [hstart] at h
    obtain rfl := Except.error.inj h
    rfl
  | ok p =>
    rw [hstart] at h
    cases hstmts : Parse.itemsUntil Parser.isEmpty (Parse.statement .standard p.fuel) p.fuel p with
    | ok ss q => cases (Parse.eval_of_ok (Parse.script_of_ok hstmts)).symm.trans h
    | error e' q =>
      obtain rfl :=
        Except.error.inj ((Parse.eval_of_error (Parse.script_of_error hstmts)).symm.trans h)
      exact Parse.reading_of_error hstmts

/-- If all complete statements are declarations, the program is the script. -/
theorem program_of_accepted (h : ∀ x ∈ b.reading.complete, x.2.decl?.isSome) :
    b.program = b.script.map Script.declarations := by
  rw [Buffer.reading] at h
  rw [Buffer.program, Buffer.script]
  cases hstart : Parser.start b with
  | error e => rfl
  | ok p =>
    rw [hstart] at h
    have hdecls := Parse.declarations_of_accepted h
    change Parse.eval _ p = (Parse.eval _ p).map _
    cases hstmts : Parse.itemsUntil Parser.isEmpty (Parse.statement .standard p.fuel) p.fuel p with
    | error e q =>
      have hprogram := Parse.program_of_error (hdecls.trans (Parse.map_of_error hstmts))
      rw [Parse.eval_of_error (Parse.script_of_error hstmts), Parse.eval_of_error hprogram]
      rfl
    | ok ss q =>
      have hprogram := Parse.program_of_ok (hdecls.trans (Parse.map_of_ok hstmts))
      have hscript := Parse.script_of_ok hstmts
      obtain ⟨ts, -, ⟨hread, -⟩, -⟩ := Parse.takes_script p _ _ hscript
      have haccepted : ∀ s ∈ ss, s.decl?.isSome := by
        rw [← (Parse.reading_of_ok hstmts).2]
        exact List.forall_mem_map.2 h
      rw [Parse.eval_of_ok hscript, Parse.eval_of_ok hprogram,
        Stmt.ranges_of_allReadFrom hread haccepted]
      rfl

/-- A text with a complete statement that is no declaration is no program, and is refused
at the first of them. -/
theorem program_of_refused {front back : List (Token × Stmt)} {t : Token} {s : Stmt}
    (h : b.reading.complete = front ++ (t, s) :: back) (hfront : ∀ x ∈ front, x.2.decl?.isSome)
    (hs : s.decl? = none) : b.program = .error ⟨.expectedDeclaration t.label, t.range⟩ := by
  rw [Buffer.reading] at h
  rw [Buffer.program]
  cases hstart : Parser.start b with
  | error e => simp [hstart] at h
  | ok p =>
    rw [hstart] at h
    obtain ⟨q, hdecls⟩ := Parse.declarations_of_refused h hfront hs
    exact Parse.eval_of_error (Parse.program_of_error hdecls)

/-- The complete statements of a text are read from its tokens, one after another. -/
theorem exists_tokens_of_complete {front back : List (Token × Stmt)} {t : Token} {s : Stmt}
    (h : b.reading.complete = front ++ (t, s) :: back) :
    ∃ before rest after, (b.items.filter fun i => !Filter.leavesOut Filter.trivia i) =
        (before ++ t :: rest).map .ok ++ after ∧
      Stmt.AllReadFrom (front.map Prod.snd) before ∧ s.ReadFrom (t :: rest) := by
  rw [Buffer.reading] at h
  cases hstart : Parser.start b with
  | error e => simp [hstart] at h
  | ok p =>
    rw [hstart] at h
    rw [← Filter.remaining_ofItems, ← Parser.ahead_of_start hstart]
    exact Parse.exists_tokens_of_complete h

/-- The complete statements are declarations, or there is a first one that is none. -/
theorem accepted_or_refused (b : Buffer) : (∀ x ∈ b.reading.complete, x.2.decl?.isSome) ∨
    ∃ front t s back, b.reading.complete = front ++ (t, s) :: back ∧
      (∀ x ∈ front, x.2.decl?.isSome) ∧
      s.decl? = none := by
  cases hfind : b.reading.complete.find? fun x => x.2.decl?.isNone with
  | none =>
    refine .inl fun x hx => ?_
    simpa [← Option.isSome_iff_ne_none] using List.find?_eq_none.1 hfind x hx
  | some x =>
    obtain ⟨hx, front, back, hsplit, hfront⟩ := List.find?_eq_some_iff_append.1 hfind
    refine .inr ⟨front, x.1, x.2, back, hsplit, fun y hy => ?_, Option.isNone_iff_eq_none.1 hx⟩
    simpa [← Option.isSome_iff_ne_none] using hfront y hy

/-- A text is a program if and only if it is a script of declarations, and has the same then. -/
theorem program_eq_ok_iff (u : Program) : b.program = .ok u ↔ ∃ s : Script, b.script = .ok s ∧
    s.stmts.map Stmt.decl? = u.decls.map some ∧ s.range = u.range ∧ s.names = u.names ∧
    s.scopes = u.scopes := by
  constructor
  · intro hu
    obtain haccepted | ⟨front, t, s, back, hsplit, hfront, hs⟩ := b.accepted_or_refused
    · rw [program_of_accepted haccepted] at hu
      cases hscript : b.script with
      | error e => simp [hscript, Except.map] at hu
      | ok s =>
        obtain rfl : s.declarations = u := by simpa [hscript, Except.map] using hu
        have hdecls : ∀ x ∈ s.stmts, x.decl?.isSome := by
          rw [(reading_of_script hscript).2]
          exact List.forall_mem_map.2 haccepted
        exact ⟨s, rfl, Stmt.map_decl?_eq_iff.2 ⟨hdecls, rfl⟩, rfl, rfl, rfl⟩
    · cases (program_of_refused hsplit hfront hs).symm.trans hu
  · rintro ⟨s, hscript, hdecls, hrange, hnames, hscopes⟩
    obtain ⟨hall, hdecls⟩ := Stmt.map_decl?_eq_iff.1 hdecls
    rw [(reading_of_script hscript).2] at hall
    have hu : s.declarations = u := by rw [Script.declarations, hdecls, hrange, hnames, hscopes]
    rw [program_of_accepted (List.forall_mem_map.1 hall), hscript, ← hu]
    rfl

/-- A program is a script of declarations. A text is a program if and only if it is a script of
which all statements are declarations, and then the two have the same declarations, range,
names and scopes. Otherwise, if some complete statement at the top level is no declaration, the
text is refused at the token at which the first such statement starts, and if there is none, it
fails as the script does. -/
theorem program_iff_script (b : Buffer) :
    (∀ u : Program, b.program = .ok u ↔
      ∃ s : Script, b.script = .ok s ∧ s.stmts.map Stmt.decl? = u.decls.map some ∧
      s.range = u.range ∧ s.names = u.names ∧ s.scopes = u.scopes) ∧
    ((∀ s : Script, b.script = .ok s →
      b.reading.error = none ∧ s.stmts = b.reading.complete.map Prod.snd) ∧
      ∀ e, b.script = .error e → b.reading.error = some e) ∧
    (∀ front t s back, b.reading.complete = front ++ (t, s) :: back →
      (∀ x ∈ front, x.2.decl?.isSome) →
      s.decl? = none → b.program = .error ⟨.expectedDeclaration t.label, t.range⟩ ∧
        ∃ before rest after, (b.items.filter fun i => !Filter.leavesOut Filter.trivia i) =
            (before ++ t :: rest).map .ok ++ after ∧
          Stmt.AllReadFrom (front.map Prod.snd) before ∧ s.ReadFrom (t :: rest)) ∧
    ((∀ x ∈ b.reading.complete, x.2.decl?.isSome) → ∀ e, b.script = .error e →
      b.program = .error e) := by
  refine ⟨program_eq_ok_iff, ⟨fun s => reading_of_script, fun e => reading_of_script_error⟩, ?_, ?_⟩
  · intro front t s back hsplit hfront hs
    exact ⟨program_of_refused hsplit hfront hs, exists_tokens_of_complete hsplit⟩
  · intro haccepted e he
    rw [program_of_accepted haccepted, he]
    rfl

/-- An assignment refuses a program at its first token, and the error in the declaration after it
goes unseen. Without the assignment, that error is the program's. -/
theorem program_refused_at_assignment :
    ((anonymous "var a; a = 1; var ;").program =
        .error ⟨.expectedDeclaration "identifier \"a\"", ⟨⟨1, 8⟩, ⟨1, 9⟩⟩⟩ ∧
      (anonymous "var a; a = 1; var ;").reading.error =
        some ⟨.expected "identifier" "punctuation \";\"", ⟨⟨1, 19⟩, ⟨1, 20⟩⟩⟩) ∧
    ((anonymous "var a; var ;").program =
        .error ⟨.expected "identifier" "punctuation \";\"", ⟨⟨1, 12⟩, ⟨1, 13⟩⟩⟩) := by
  refine ⟨⟨?_, by decide +kernel⟩, ?_⟩
  · have hcomplete :
        ((anonymous "var a; a = 1; var ;").reading.complete.map fun x => (x.1, x.2.decl?.isSome)) =
        [(⟨.identifier "var", ⟨⟨1, 1⟩, ⟨1, 4⟩⟩⟩, true),
            (⟨.identifier "a", ⟨⟨1, 8⟩, ⟨1, 9⟩⟩⟩, false)] := by
      decide +kernel
    obtain ⟨⟨_, d⟩, _, hsplit, hd, hrest⟩ := List.map_eq_cons_iff.1 hcomplete
    obtain ⟨⟨_, s⟩, _, rfl, hs, -⟩ := List.map_eq_cons_iff.1 hrest
    obtain ⟨rfl, hs⟩ := Prod.mk.inj hs
    have hfront : ∀ x ∈ [(_, d)], x.2.decl?.isSome := List.forall_mem_singleton.2 (Prod.mk.inj hd).2
    exact ((program_iff_script _).2.2.1 [(_, d)] _ s _ hsplit hfront (by simpa using hs)).1
  · have haccepted : (anonymous "var a; var ;").reading.complete.all (·.2.decl?.isSome) = true := by
      decide +kernel
    have herror : (anonymous "var a; var ;").reading.error =
        some ⟨.expected "identifier" "punctuation \";\"", ⟨⟨1, 12⟩, ⟨1, 13⟩⟩⟩ := by decide +kernel
    cases hscript : (anonymous "var a; var ;").script with
    | ok s => cases (((program_iff_script _).2.1.1 s hscript).1).symm.trans herror
    | error e =>
      obtain rfl := Option.some.inj (((program_iff_script _).2.1.2 e hscript).symm.trans herror)
      exact (program_iff_script _).2.2.2 (List.all_eq_true.1 haccepted) _ hscript

end Buffer

end Rill
