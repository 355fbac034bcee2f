import Mathlib.Order.Basic
import Rill.Proofs.Lines

/-!
# Places in order

Locations are ordered linearly, and a walk over a text moves forward, so the tokens of a buffer
stand one after the other (`Buffer.inOrder_of_tokens`). The range across tokens in order runs from
the start of the first to the stop of the last (`Range.across`); merging the ranges across two
pieces gives the one across both and all that stands between them (`Range.merge_across`).

A range covers a piece of the text if its ends are the places before and after the piece
(`Buffer.Covers`). Tokens and faults cover pieces, and so does every range from the start of one to
the stop of a later one.
-/

namespace Rill

/-! ## Locations -/

namespace Location

variable {a b : Location}

/-- Locations are ordered by lines and then by columns. -/
theorem le_iff : a ≤ b ↔ a.line < b.line ∨ a.line = b.line ∧ a.column ≤ b.column := Iff.rfl

theorem lt_iff : a < b ↔ a.line < b.line ∨ a.line = b.line ∧ a.column < b.column := Iff.rfl

instance : LinearOrder Location where
  le_refl a := .inr ⟨rfl, Nat.le_refl _⟩
  le_trans a b c h h' := by
    rw [le_iff] at *
    omega
  lt_iff_le_not_ge a b := by
    rw [le_iff, le_iff, lt_iff]
    omega
  le_antisymm a b h h' := by
    obtain ⟨line, column⟩ := a
    obtain ⟨line', column'⟩ := b
    rw [le_iff] at h h'
    simp only [Location.mk.injEq]
    simp only at h h'
    omega
  le_total a b := by
    rw [le_iff, le_iff]
    omega
  toDecidableLE := inferInstance
  toDecidableEq := inferInstance
  toDecidableLT := inferInstance
  min_def _ _ := rfl
  max_def _ _ := rfl

/-- The unknown location lies before the start of every text. -/
theorem unknown_lt_origin : unknown < origin := .inl Nat.zero_lt_one

end Location

/-! ## Tokens in order -/

/-- Tokens that stand one after the other, none of them empty. -/
structure InOrder (ts : List Token) : Prop where
  apart : ts.Pairwise fun t u => t.range.stop ≤ u.range.start
  filled : ∀ t ∈ ts, t.range.start < t.range.stop
  known : ∀ t ∈ ts, Location.origin ≤ t.range.start

namespace InOrder

variable {ts us vs : List Token}

/-- Tokens that are left out do not change the order of the others. -/
theorem sublist (h : InOrder ts) (hsub : us.Sublist ts) : InOrder us where
  apart := h.apart.sublist hsub
  filled t ht := h.filled t (hsub.subset ht)
  known t ht := h.known t (hsub.subset ht)

theorem left (h : InOrder (us ++ vs)) : InOrder us := h.sublist (List.sublist_append_left us vs)

theorem right (h : InOrder (us ++ vs)) : InOrder vs := h.sublist (List.sublist_append_right us vs)

theorem tail {t : Token} (h : InOrder (t :: ts)) : InOrder ts :=
  h.sublist (List.sublist_cons_self t ts)

/-- A token stops before a later one starts. -/
theorem stop_le_start (h : InOrder (us ++ vs)) {t u : Token} (ht : t ∈ us) (hu : u ∈ vs) :
    t.range.stop ≤ u.range.start :=
  (List.pairwise_append.1 h.apart).2.2 t ht u hu

end InOrder

/-- Ranges that stand side by side are in order. -/
theorem inOrder_of_tiles : ∀ {ts : List Token} {l l' : Location}, Location.origin ≤ l →
    Tiles l (ts.map Token.range) l' → InOrder ts ∧ ∀ t ∈ ts, l ≤ t.range.start
  | [], _, _, _, _ => ⟨⟨.nil, by simp, by simp⟩, by simp⟩
  | t :: ts, l, l', hl, h => by
    obtain ⟨rfl, hstop, hrest⟩ := h
    obtain ⟨hord, hafter⟩ := inOrder_of_tiles (hl.trans hstop.le) hrest
    refine ⟨⟨.cons hafter hord.apart, ?_, ?_⟩, ?_⟩
    · simpa using ⟨hstop, hord.filled⟩
    · simpa using ⟨hl, hord.known⟩
    · simpa using fun u hu => hstop.le.trans (hafter u hu)

/-- The items of a buffer are the tokens of the walk over it and the fault that ends the walk. -/
theorem Tokenizer.items_of_walk {c c' : Cursor} {ts : List Token} {error : Option LexError}
    (hwalk : Walk c ts c') (hends : WalkEnds c' error) {t : Tokenizer} (hcursor : t.cursor = c)
    (hfailed : t.failed = false) {m : Nat} (hm : c.rest.length ≤ m) :
    t.items m = walkItems ts error := by
  induction hwalk generalizing t m with
  | done c =>
    subst hcursor
    cases hends with
    | text h => simp [items_nil h, walkItems]
    | @fault f n h =>
      have hpos := extent_of_scan h
      obtain ⟨m, rfl⟩ : ∃ k, m = k + 1 := ⟨m - 1, by omega⟩
      have hafter := next_failed (t := ⟨t.cursor.advance n, t.last, true⟩) rfl
      cases m <;> simp [items, next_fault hfailed h, hafter, walkItems]
  | @step c c' l n ts hscan more ih =>
    subst hcursor
    have hpos := extent_of_scan hscan
    simp only [Scan.extent] at hpos
    obtain ⟨m, rfl⟩ : ∃ k, m = k + 1 := ⟨m - 1, by omega⟩
    have hless : (t.cursor.advance n).rest.length ≤ m := by
      rw [Cursor.rest_advance, List.length_drop]
      omega
    have hrest := ih hends (t := t.after l n) rfl hfailed hless
    rw [items_lexeme hfailed hscan, hrest]
    rfl

namespace Buffer

variable {b : Buffer} {ts : List Token}

/-- The walk over a buffer gives its items. -/
theorem exists_walk_items (b : Buffer) : ∃ ts c' error,
    Walk (Cursor.start b) ts c' ∧ WalkEnds c' error ∧ b.items = walkItems ts error := by
  obtain ⟨ts, c', error, hwalk, hends⟩ := exists_walk (Cursor.start b)
  exact ⟨ts, c', error, hwalk, hends,
    Tokenizer.items_of_walk hwalk hends rfl rfl (Nat.le_refl b.chars.length)⟩

/-- Without a fault, the tokens that carry meaning are some of the tokens of the walk. -/
theorem sublist_of_tokens {us : List Token} {error : Option LexError}
    (hitems : b.items = walkItems us error) (h : b.tokens = .ok ts) : ts.Sublist us := by
  rw [tokens_eq_ok, Filter.remaining_ofItems, hitems] at h
  have hsub : (ts.map .ok).Sublist (walkItems us error) := h ▸ List.filter_sublist
  have htoken := hsub.filterMap Except.toOption
  cases error with
  | none => simpa [walkItems, List.filterMap_map, Function.comp_def, Except.toOption] using htoken
  | some e =>
    have hnone : [Except.error e].filterMap (Except.toOption (α := Token)) = [] := rfl
    simpa [walkItems, List.filterMap_map, Function.comp_def, Except.toOption, hnone] using htoken

/-- The tokens of a buffer stand one after the other. -/
theorem inOrder_of_tokens (h : b.tokens = .ok ts) : InOrder ts := by
  obtain ⟨us, c', error, hwalk, -, hitems⟩ := b.exists_walk_items
  obtain ⟨htiles, -⟩ := (Cursor.at_start b).walk hwalk
  exact (inOrder_of_tiles (le_refl _) htiles).1.sublist (sublist_of_tokens hitems h)

end Buffer

/-! ## Ranges across tokens -/

namespace Range

/-- The range from the start of the first token to the stop of the last; unknown if there
are no tokens. -/
def across (ts : List Token) : Range :=
  match ts.head?, ts.getLast? with
  | some t, some u => ⟨t.range.start, u.range.stop⟩
  | _, _ => .unknown

/-- The range across tokens runs from the first to the last. -/
theorem across_eq {ts : List Token} (h : ts ≠ []) :
    across ts = ⟨(ts.head h).range.start, (ts.getLast h).range.stop⟩ := by
  simp [across, List.head?_eq_some_head h, List.getLast?_eq_some_getLast h]

/-- A range that starts in the text is known. -/
theorem not_isUnknown {r : Range} (h : Location.origin ≤ r.start) : r.isUnknown = false := by
  rw [isUnknown, beq_eq_false_iff_ne]
  rintro rfl
  exact absurd Location.unknown_lt_origin (not_lt.2 h)

/-- Ranges in their order are merged to the one from the first to the second. -/
theorem merge_of_le {r r' : Range} (hr : Location.origin ≤ r.start) (hstart : r.start ≤ r'.start)
    (hstop : r.stop ≤ r'.stop) : r.merge r' = ⟨r.start, r'.stop⟩ := by
  have hr' := not_isUnknown (hr.trans hstart)
  simp [merge, not_isUnknown hr, hr', min_eq_left hstart, max_eq_right hstop]

/-- The ranges across two pieces merge to the range across both and all that stands in between. -/
theorem merge_across {us mid vs : List Token} (h : InOrder (us ++ (mid ++ vs))) (hus : us ≠ [])
    (hvs : vs ≠ []) : (across us).merge (across vs) = across (us ++ (mid ++ vs)) := by
  have hhead := List.head_mem hus
  have hlast := List.getLast_mem hvs
  have hbefore : ∀ t ∈ us, ∀ u ∈ vs, t.range.stop ≤ u.range.start := fun t ht u hu =>
    h.stop_le_start ht (List.mem_append_right mid hu)
  have hstart : (us.head hus).range.start ≤ (vs.head hvs).range.start :=
    (h.left.filled _ hhead).le.trans (hbefore _ hhead _ (List.head_mem hvs))
  have hstop : (us.getLast hus).range.stop ≤ (vs.getLast hvs).range.stop :=
    (hbefore _ (List.getLast_mem hus) _ hlast).trans (h.right.right.filled _ hlast).le
  have hall : us ++ (mid ++ vs) ≠ [] := by simp [hus]
  rw [across_eq hus, across_eq hvs, across_eq hall]
  have hmerge : merge ⟨(us.head hus).range.start, (us.getLast hus).range.stop⟩
      ⟨(vs.head hvs).range.start, (vs.getLast hvs).range.stop⟩ =
        ⟨(us.head hus).range.start, (vs.getLast hvs).range.stop⟩ :=
    merge_of_le (h.left.known _ hhead) hstart hstop
  simp [hmerge, hus, hvs]

end Range

/-! ## Pieces of the text -/

/-- The range of an item. -/
def Item.range : Item → Range
  | .ok t => t.range
  | .error e => e.range

/-- The ends of the range are the places before and after a piece of the text. -/
def Buffer.Covers (b : Buffer) (r : Range) : Prop :=
  ∃ before mid rest, b.chars = before ++ (mid ++ rest) ∧
    r = ⟨Location.past .origin before (mid ++ rest), Location.past .origin (before ++ mid) rest⟩

namespace Cursor.At

variable {b : Buffer} {before : List Char} {c c' : Cursor} {ts : List Token}

/-- A cursor that advances covers a piece of the text. -/
theorem covers (h : c.At b before) (n : Nat) : b.Covers ⟨c.location, (c.advance n).location⟩ := by
  have hcut := List.take_append_drop n c.rest
  refine ⟨before, c.rest.take n, c.rest.drop n, by rw [hcut, h.chars], ?_⟩
  rw [hcut, ← h.location, ← rest_advance, ← (h.advance n).location]

/-- Each token of a walk covers a piece of the text. -/
theorem covers_of_walk (h : c.At b before) (hwalk : Walk c ts c') : ∀ t ∈ ts, b.Covers t.range := by
  induction hwalk generalizing before with
  | done c => simp
  | step _ _ ih => exact List.forall_mem_cons.2 ⟨h.covers _, ih (h.advance _)⟩

end Cursor.At

namespace Buffer

variable {b : Buffer} {r r' : Range}

/-- Tokens cover pieces of the text, and so does the fault after them. -/
theorem covers_of_mem_items (b : Buffer) : ∀ i ∈ b.items, b.Covers i.range := by
  obtain ⟨ts, c', error, hwalk, hends, hitems⟩ := b.exists_walk_items
  have htokens := (Cursor.at_start b).covers_of_walk hwalk
  obtain ⟨-, pieces, -, hstop⟩ := (Cursor.at_start b).walk hwalk
  intro i hi
  rw [hitems, walkItems, List.mem_append, List.mem_map, List.mem_map] at hi
  rcases hi with ⟨t, ht, rfl⟩ | ⟨e, he, rfl⟩
  · exact htokens t ht
  · cases hends with
    | text => simp at he
    | @fault f n hscan =>
      obtain rfl := List.mem_singleton.1 he
      exact hstop.covers n

/-- The end of the text is the place of an empty piece. -/
theorem covers_end (b : Buffer) :
    b.Covers ⟨(b.location? b.size).getD .origin, (b.location? b.size).getD .origin⟩ := by
  have hend : b.location? b.size = some (Location.past .origin b.chars []) :=
    location?_byteLength (b.chars.append_nil.symm)
  refine ⟨b.chars, [], [], by simp, ?_⟩
  rw [hend, Option.getD_some, List.append_nil, List.append_nil]

/-- From the start of one piece to the stop of another that does not end before it is
a piece again. -/
theorem Covers.through (h : b.Covers r) (h' : b.Covers r') (hle : r.start ≤ r'.stop) :
    b.Covers ⟨r.start, r'.stop⟩ := by
  obtain ⟨before, mid, rest, hchars, rfl⟩ := h
  obtain ⟨before', mid', rest', hchars', rfl⟩ := h'
  rw [← List.append_assoc] at hchars'
  have heq := hchars.symm.trans hchars'
  rcases List.append_eq_append_iff.1 heq with ⟨cs, hcs, hrest⟩ | ⟨cs, hcs, hrest⟩
  · exact ⟨before, cs, rest', by rw [hchars, hrest], by simp only [hcs, hrest]⟩
  · -- the second piece ends inside the text before the first, which leaves nothing in between
    obtain rfl : cs = [] := by
      by_contra hne
      have hlt := Location.lt_past (Location.past .origin (before' ++ mid') rest') hne (mid ++ rest)
      refine absurd hle (not_le.2 ?_)
      simp only [hcs, Location.past_append .origin (before' ++ mid') cs, ← hrest]
      exact hlt
    refine ⟨before, [], mid ++ rest, by simpa using hchars, ?_⟩
    simp only [List.nil_append, List.append_nil, hcs, hrest]

/-- A range that covers a piece of the text is known. -/
theorem Covers.known (h : b.Covers r) : Location.origin ≤ r.start := by
  obtain ⟨before, mid, rest, -, rfl⟩ := h
  cases before with
  | nil => exact le_refl _
  | cons c before => exact (Location.lt_past .origin (List.cons_ne_nil c before) _).le

end Buffer

end Rill
