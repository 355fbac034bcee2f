import Rill.Proofs.Mirror

/-!
# The names of a text

A parser enters a name in its table whenever it takes an identifier as a name, and at no other time
(`Parser.Entered`). So the table of a script holds the names that are known before and those that
occur (`Buffer.mem_names_of_script`). These are the names that a visit of the statements reports
(`Script.reported`), each from a token of its own and with the text of its range.
-/

namespace Rill

namespace NameTable

variable {t : NameTable} {is : List Ident} {name : String}

/-- A table holds a new name and those that it held before. -/
theorem mem_insert {new : String} : name ∈ (t.insert new).names ↔ name ∈ t.names ∨ name = new := by
  rw [insert]
  split
  · rename_i h
    have hmem : new ∈ t.names := by simpa [contains] using h
    constructor
    · exact .inl
    · rintro (h | rfl)
      · exact h
      · exact hmem
  · simp

/-- A name that a table holds already is not entered again. -/
theorem nodup_insert (h : t.names.Nodup) (new : String) : (t.insert new).names.Nodup := by
  rw [insert]
  split
  · exact h
  · rename_i hnew
    have hmem : new ∉ t.names := by simpa [contains] using hnew
    refine List.nodup_append.2 ⟨h, by simp, ?_⟩
    intro a ha b hb
    rw [List.mem_singleton.1 hb]
    rintro rfl
    exact hmem ha

/-- A table holds the names that it held before and those that were entered. -/
theorem mem_enter : name ∈ (t.enter is).names ↔ name ∈ t.names ∨ ∃ i ∈ is, i.name = name := by
  induction is generalizing t with
  | nil => simp [enter]
  | cons i is ih =>
    have hstep : t.enter (i :: is) = (t.insert i.name).enter is := rfl
    rw [hstep, ih, mem_insert, or_assoc]
    simp [eq_comm]

theorem nodup_initial : initial.names.Nodup := by decide

/-- However many names are entered, the table holds each once. -/
theorem nodup_enter (h : t.names.Nodup) (is : List Ident) : (t.enter is).names.Nodup := by
  induction is generalizing t with
  | nil => exact h
  | cons i is ih => exact ih (nodup_insert h i.name)

end NameTable

/-! ## Texts -/

/-- Tokens in order are different tokens. -/
theorem InOrder.nodup {ts : List Token} (h : InOrder ts) : ts.Nodup := by
  refine h.apart.imp_of_mem fun {t u} ht _ hle heq => ?_
  have hlt := h.filled t ht
  rw [← heq] at hle
  exact lt_irrefl _ (lt_of_lt_of_le hlt hle)

/-- The names that a script mentions, by themselves or as types, in the order in which
they are visited. -/
def Script.reported (s : Script) : List Ident := (Stmt.mentionsAll s.stmts).filterMap Mention.ident?

namespace Buffer

variable {b : Buffer} {ts : List Token} {s : Script}

/-- The text of an identifier is its name. -/
theorem slice?_of_identifier (h : b.tokens = .ok ts) {i : Ident} (hi : i.token ∈ ts) :
    b.slice? i.range = some i.name := by
  obtain ⟨us, c', error, hwalk, -, hitems⟩ := b.exists_walk_items
  have hmem := (sublist_of_tokens hitems h).subset hi
  obtain ⟨before, d, n, hd, hscan, hrange⟩ := (Cursor.at_start b).exists_scan hwalk i.token hmem
  have hpiece := hd.piece hscan
  have hslice := hpiece.slice
  rw [hpiece.text nofun nofun, ← hrange] at hslice
  exact hslice

/-- The table of a script holds its first names and the names that the script mentions. -/
theorem mem_names_of_script (h : b.script = .ok s) (hwf : Stmt.AllWellFormed s.stmts)
    (name : String) :
    name ∈ s.names.names ↔
    name ∈ ["return", "main", "print"] ∨ ∃ i ∈ s.reported, i.name = name := by
  obtain ⟨q, -, hscript⟩ := ok_of_eval h
  have hidents := (Stmt.visits_all s.stmts hwf).idents
  obtain ⟨-, hnames, hentered⟩ := Parse.entered_of_script hscript rfl Nat.zero_lt_one
  rw [hnames, hentered.names, NameTable.mem_enter]
  exact or_congr_right (exists_congr fun i => and_congr_left' hidents.mem_iff.symm)

/-- The names of a script are all different. -/
theorem nodup_names_of_script (h : b.script = .ok s) : s.names.names.Nodup := by
  obtain ⟨q, -, hscript⟩ := ok_of_eval h
  obtain ⟨-, hnames, hentered⟩ := Parse.entered_of_script hscript rfl Nat.zero_lt_one
  rw [hnames, hentered.names]
  exact NameTable.nodup_enter NameTable.nodup_initial _

/-- Visiting the statements of a script reports each identifier of its text that does not serve as a
word once, by itself or as a type, and each word of a builtin type. The names in the table are the
first ones and those reported, and each reported one is the text of its range. -/
theorem names_reported_once (h : b.script = .ok s) :
    ∃ ts, b.tokens = .ok ts ∧ Serves ts (Stmt.allRoles s.stmts) ∧
    (s.reported.map Ident.token).Perm (freeIdentifiers ts (Stmt.allRoles s.stmts)) ∧
    (s.reported.map Ident.token).Nodup ∧
    (Stmt.mentionsAll s.stmts).filterMap Mention.builtin? = ts.filterMap Token.type? ∧
    s.names.names.Nodup ∧
    (∀ name, name ∈ s.names.names ↔
      name ∈ ["return", "main", "print"] ∨ ∃ i ∈ s.reported, i.name = name) ∧
    ∀ i ∈ s.reported, b.slice? i.range = some i.name := by
  obtain ⟨ts, hts, hread, hwf⟩ := allReadFrom_of_script h
  have hord := inOrder_of_tokens hts
  have hserves := Stmt.serves_of_allReadFrom hread hord
  have hvisits := Stmt.visits_all s.stmts hwf
  have hperm : (s.reported.map Ident.token).Perm (freeIdentifiers ts (Stmt.allRoles s.stmts)) :=
    hserves.freeIdentifiers_eq ▸ hvisits.idents.map Ident.token
  refine ⟨ts, hts, hserves, hperm, ?_, ?_, nodup_names_of_script h, mem_names_of_script h hwf,
    fun i hi => ?_⟩
  · exact hperm.nodup_iff.2 (hserves.freeIdentifiers_sublist.nodup hord.nodup)
  · rw [hvisits.types, hserves.types_eq]
  · have hfree := hperm.mem_iff.1 (List.mem_map_of_mem hi)
    exact slice?_of_identifier hts (hserves.freeIdentifiers_sublist.subset hfree)

/-- Words of statements that stand as a value or as a field are names, and the type of a variable is
visited after its name. -/
theorem names_reported_words : ∃ s ts,
    (anonymous "var T x = while; if (x) f(x.if); else \x7b var int y; \x7d").script = .ok s ∧
      (anonymous "var T x = while; if (x) f(x.if); else \x7b var int y; \x7d").tokens = .ok ts ∧
      s.reported.map Ident.name = ["x", "T", "while", "x", "f", "x", "if", "y"] ∧
      s.names.names = ["return", "main", "print", "T", "x", "while", "f", "if", "y"] ∧
      (s.reported.map Ident.token).Perm (freeIdentifiers ts (Stmt.allRoles s.stmts)) ∧
      ts.filterMap Token.type? = [.int] := by
  have hread :
      ((anonymous "var T x = while; if (x) f(x.if); else \x7b var int y; \x7d").script.map fun s =>
      (s.reported.map Ident.name, s.names.names,
        (Stmt.mentionsAll s.stmts).filterMap Mention.builtin?)).toOption =
      some (["x", "T", "while", "x", "f", "x", "if", "y"],
        ["return", "main", "print", "T", "x", "while", "f", "if", "y"], [.int]) := by decide +kernel
  cases hs : (anonymous "var T x = while; if (x) f(x.if); else \x7b var int y; \x7d").script with
  | error e => simp [hs, Except.map, Except.toOption] at hread
  | ok s =>
    simp only [hs, Except.map, Except.toOption, Option.some.injEq, Prod.mk.injEq] at hread
    obtain ⟨hreported, hnames, htypes⟩ := hread
    obtain ⟨ts, hts, -, hperm, -, hbuiltin, -⟩ := names_reported_once hs
    exact ⟨s, ts, rfl, hts, hreported, hnames, hperm, hbuiltin ▸ htypes⟩

end Buffer

end Rill
