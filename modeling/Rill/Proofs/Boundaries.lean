import Rill.Proofs.Location

/-!
# Character boundaries

The offsets between two characters of a text, and those of its two ends, are its boundaries
(`Buffer.Boundary`). On them offsets and locations correspond exactly : a location stands for one
boundary, later boundaries have later locations, and the range between two boundaries holds the text
between them. A cursor that walks and jumps forward in any order has the location that the table of
line starts gives for its offset, wherever it has landed, also between a carriage return and a line
feed (`Cursor.Driven.at`).

`Buffer.boundaries_correspond` collects this for any text.
-/

namespace Rill

/-- The bytes that are counted are those of the encoded text. -/
theorem byteLength_eq_utf8ByteSize (cs : List Char) :
    byteLength cs = (String.ofList cs).utf8ByteSize := by
  induction cs with
  | nil => rfl
  | cons c cs ih =>
    have hcons : String.ofList (c :: cs) = String.singleton c ++ String.ofList cs := by
      rw [← String.toList_inj]
      simp
    rw [byteLength, ih, hcons, String.utf8ByteSize_append, String.utf8ByteSize_singleton]

theorem byteLength_toList (s : String) : byteLength s.toList = s.utf8ByteSize := by
  rw [byteLength_eq_utf8ByteSize, String.ofList_toList]

/-- Of two cuts of one text, the one after fewer bytes comes first. -/
theorem exists_mid_of_byteLength_le {before rest before' rest' : List Char}
    (h : before ++ rest = before' ++ rest') (hle : byteLength before ≤ byteLength before') :
    ∃ mid, before' = before ++ mid ∧ rest = mid ++ rest' := by
  rcases List.append_eq_append_iff.1 h with hmid | ⟨cs, rfl, hrest⟩
  · exact hmid
  · -- the second cut comes first only if nothing lies between the two
    have hlength := length_le_byteLength cs
    rw [byteLength_append] at hle
    obtain rfl : cs = [] := List.length_eq_zero_iff.1 (by omega)
    exact ⟨[], by simp, by simpa using hrest.symm⟩

theorem eq_append_of_splitAtByte? {n : Nat} {cs before rest : List Char}
    (h : splitAtByte? n cs = some (before, rest)) :
    cs = before ++ rest ∧ n = byteLength before := by
  fun_induction splitAtByte? n cs generalizing before rest with
  | case1 cs =>
    obtain ⟨rfl, rfl⟩ := Prod.mk.inj (Option.some.inj h)
    exact ⟨rfl, rfl⟩
  | case2 n => cases h
  | case3 n c cs hle ih =>
    obtain ⟨⟨a, r⟩, hsplit, hcons⟩ := Option.map_eq_some_iff.1 h
    obtain ⟨rfl, rfl⟩ := Prod.mk.inj hcons
    obtain ⟨rfl, hn⟩ := ih hsplit
    refine ⟨rfl, ?_⟩
    rw [byteLength]
    omega
  | case4 n c cs hle => cases h

/-! ## Boundaries -/

/-- The offset lies between two characters of the text, or at one of its ends. -/
def Buffer.Boundary (b : Buffer) (o : Nat) : Prop :=
  ∃ before rest : String, b.text = before ++ rest ∧ o = before.utf8ByteSize

namespace Buffer

variable {b : Buffer} {o o' : Nat}

theorem boundary_iff :
    b.Boundary o ↔ ∃ before rest, b.chars = before ++ rest ∧ o = byteLength before := by
  constructor
  · rintro ⟨before, rest, htext, rfl⟩
    exact ⟨before.toList, rest.toList, by rw [chars, htext, String.toList_append],
      (byteLength_toList _).symm⟩
  · rintro ⟨before, rest, hchars, rfl⟩
    refine ⟨String.ofList before, String.ofList rest, ?_, byteLength_eq_utf8ByteSize _⟩
    rw [← String.ofList_append, ← hchars, chars, String.ofList_toList]

/-- Two boundaries cut the text in three pieces. -/
theorem Boundary.exists_pieces (h : b.Boundary o) (h' : b.Boundary o') (hle : o ≤ o') :
    ∃ before mid rest, b.chars = before ++ (mid ++ rest) ∧ o = byteLength before ∧
      o' = byteLength (before ++ mid) := by
  obtain ⟨before, rest, hchars, rfl⟩ := boundary_iff.1 h
  obtain ⟨before', rest', hchars', rfl⟩ := boundary_iff.1 h'
  obtain ⟨mid, rfl, rfl⟩ := exists_mid_of_byteLength_le (hchars.symm.trans hchars') hle
  exact ⟨before, mid, rest', hchars, rfl, rfl⟩

/-- The location of a boundary leads back to it. -/
theorem Boundary.exists_location (h : b.Boundary o) :
    ∃ l, b.location? o = some l ∧ b.offset? l = some o := by
  obtain ⟨before, rest, hchars, rfl⟩ := boundary_iff.1 h
  exact ⟨_, location?_byteLength hchars, offset?_past hchars⟩

/-- Later boundaries have later locations. -/
theorem Boundary.location_lt (h : b.Boundary o) (h' : b.Boundary o') (hlt : o < o')
    {l l' : Location} (hl : b.location? o = some l) (hl' : b.location? o' = some l') : l < l' := by
  obtain ⟨before, mid, rest, hchars, rfl, rfl⟩ := h.exists_pieces h' (Nat.le_of_lt hlt)
  have hmid : mid ≠ [] := by
    rintro rfl
    simp at hlt
  have hchars' : b.chars = before ++ mid ++ rest := by rw [hchars, List.append_assoc]
  obtain rfl : Location.past .origin before (mid ++ rest) = l :=
    Option.some.inj ((location?_byteLength hchars).symm.trans hl)
  obtain rfl : Location.past .origin (before ++ mid) rest = l' :=
    Option.some.inj ((location?_byteLength hchars').symm.trans hl')
  rw [Location.past_append .origin before mid]
  exact Location.lt_past _ hmid rest

/-- The range between two boundaries holds the text between them. -/
theorem Boundary.exists_slice (h : b.Boundary o) (h' : b.Boundary o') (hle : o ≤ o') :
    ∃ before mid rest : String, b.text = before ++ mid ++ rest ∧ before.utf8ByteSize = o ∧
      (before ++ mid).utf8ByteSize = o' ∧ ∃ r, b.range? o o' = some r ∧ b.slice? r = some mid := by
  obtain ⟨before, mid, rest, hchars, rfl, rfl⟩ := h.exists_pieces h' hle
  have hchars' : b.chars = before ++ mid ++ rest := by rw [hchars, List.append_assoc]
  refine ⟨String.ofList before, String.ofList mid, String.ofList rest, ?_, ?_, ?_, _, ?_,
    slice?_past hchars⟩
  · rw [← String.ofList_append, ← String.ofList_append, ← hchars', chars, String.ofList_toList]
  · rw [byteLength_eq_utf8ByteSize]
  · rw [← String.ofList_append, byteLength_eq_utf8ByteSize]
  · simp only [range?, location?_byteLength hchars, location?_byteLength hchars']
    rfl

end Buffer

/-! ## Cursors that walk and jump -/

namespace Cursor

variable {b : Buffer} {c c' : Cursor} {o : Nat}

/-- A cursor that was moved from the start of a buffer by steps and by jumps forward,
in any order. -/
inductive Driven (b : Buffer) : Cursor → Prop
  | start : Driven b (start b)
  | next {c c' : Cursor} {p : Placed} (h : Driven b c) (hnext : c.next? = some (p, c')) :
      Driven b c'
  | seek {c c' : Cursor} {o : Nat} (h : Driven b c) (hforward : c.offset ≤ o)
      (hseek : seek? b o = some c') :
      Driven b c'

/-- A jump leads to the place that it aims at, or to the end of the text. -/
theorem exists_at_of_seek? (h : seek? b o = some c) : ∃ before, c.At b before := by
  simp only [seek?, Option.bind_eq_bind, Option.bind_eq_some_iff, Option.pure_def] at h
  obtain ⟨⟨before, rest⟩, hsplit, l, hl, hc⟩ := h
  obtain ⟨hchars, ho⟩ := eq_append_of_splitAtByte? hsplit
  rw [ho, Buffer.location?_byteLength hchars] at hl
  obtain rfl := Option.some.inj hl
  obtain rfl := Option.some.inj hc
  exact ⟨before, hchars, ho, rfl⟩

/-- Jumps to boundaries succeed. -/
theorem exists_seek? (h : b.Boundary o) : ∃ c, seek? b o = some c ∧ c.offset = o := by
  obtain ⟨before, rest, hchars, rfl⟩ := Buffer.boundary_iff.1 h
  have hsize : min (byteLength before) b.size = byteLength before := by
    rw [Buffer.size, hchars, byteLength_append]
    omega
  have hsplit : splitAtByte? (byteLength before) b.chars = some (before, rest) := by
    rw [hchars, splitAtByte?_byteLength]
  exact ⟨⟨rest, byteLength before, Location.past .origin before rest⟩, by
    simp [seek?, hsize, hsplit, Buffer.location?_byteLength hchars], rfl⟩

/-- However it was moved, a cursor stands where it would stand after a plain walk. -/
theorem Driven.at (h : c.Driven b) : ∃ before, c.At b before := by
  induction h with
  | start => exact ⟨[], at_start b⟩
  | next _ hnext ih =>
    obtain ⟨before, hat⟩ := ih
    exact ⟨_, (hat.next? hnext).2⟩
  | seek _ _ hseek _ => exact exists_at_of_seek? hseek

theorem At.boundary {before : List Char} (h : c.At b before) : b.Boundary c.offset :=
  Buffer.boundary_iff.2 ⟨before, c.rest, h.chars, h.offset⟩

end Cursor

/-- Offsets and locations correspond exactly and in order. Later boundaries have later locations,
the location of a boundary leads back to it, and the range between two boundaries holds the text
between them. Jumps to boundaries succeed, and a cursor that is driven by steps and jumps forward
stays on boundaries and has the location that the table of line starts gives for its offset. -/
theorem Buffer.boundaries_correspond (b : Buffer) :
    (∀ o o', b.Boundary o → b.Boundary o' → o < o' →
      ∃ l l', b.location? o = some l ∧ b.location? o' = some l' ∧ l < l') ∧
    (∀ o, b.Boundary o → ∃ l, b.location? o = some l ∧ b.offset? l = some o) ∧
    (∀ o o', b.Boundary o → b.Boundary o' → o ≤ o' →
      ∃ before mid rest : String, b.text = before ++ mid ++ rest ∧ before.utf8ByteSize = o ∧
        (before ++ mid).utf8ByteSize = o' ∧ ∃ r, b.range? o o' = some r ∧ b.slice? r = some mid) ∧
    (∀ o, b.Boundary o → ∃ c, Cursor.seek? b o = some c ∧ c.offset = o) ∧
    ∀ c : Cursor, c.Driven b → b.Boundary c.offset ∧ b.location? c.offset = some c.location := by
  refine ⟨fun o o' h h' hlt => ?_, fun _ h => h.exists_location,
    fun _ _ h h' hle => h.exists_slice h' hle, fun _ h => Cursor.exists_seek? h, fun c h => ?_⟩
  · obtain ⟨l, hl, -⟩ := h.exists_location
    obtain ⟨l', hl', -⟩ := h'.exists_location
    exact ⟨l, l', hl, hl', h.location_lt h' hlt hl hl'⟩
  · obtain ⟨before, hat⟩ := h.at
    exact ⟨hat.boundary, hat.location?⟩

/-- A text with a line feed after a carriage return, a character of two bytes, and a carriage return
at its end. The cursor jumps between the first two, and walks over the rest. -/
theorem Buffer.boundaries_correspond_mixed :
    let b := Buffer.anonymous "a\r\né\r"
    (b.Boundary 2 ∧ b.Boundary 5 ∧ ∃ l l', b.location? 2 = some l ∧
      b.location? 5 = some l' ∧ l < l') ∧
    (∃ r mid, b.range? 2 5 = some r ∧ b.slice? r = some mid ∧ mid.utf8ByteSize = 3) ∧
    (∃ l, b.location? 6 = some l ∧ b.offset? l = some 6) ∧
    ∃ c : Cursor, c.Driven b ∧ c = ⟨[], 6, ⟨3, 1⟩⟩ ∧ b.location? 6 = some ⟨3, 1⟩ := by
  intro b
  have hcorrespond := b.boundaries_correspond
  have hmid : b.Boundary 2 := ⟨"a\r", "\né\r", rfl, rfl⟩
  have hstop : b.Boundary 5 := ⟨"a\r\né", "\r", rfl, rfl⟩
  have hend : b.Boundary 6 := ⟨"a\r\né\r", "", rfl, rfl⟩
  have hseek : Cursor.seek? b 2 = some ⟨"\né\r".toList, 2, ⟨1, 3⟩⟩ := by decide
  have hjumped : Cursor.Driven b ⟨"\né\r".toList, 2, ⟨1, 3⟩⟩ := .seek .start (Nat.zero_le 2) hseek
  have hwalked : Cursor.Driven b ⟨[], 6, ⟨3, 1⟩⟩ := ((hjumped.next rfl).next rfl).next rfl
  obtain ⟨before, mid, rest, -, hbefore, hsize, r, hr, hslice⟩ :=
    hcorrespond.2.2.1 2 5 hmid hstop (by decide)
  rw [String.utf8ByteSize_append] at hsize
  exact ⟨⟨hmid, hstop, hcorrespond.1 2 5 hmid hstop (by decide)⟩, ⟨r, mid, hr, hslice, by omega⟩,
    hcorrespond.2.1 6 hend, _, hwalked, rfl, (hcorrespond.2.2.2.2 _ hwalked).2⟩

end Rill
