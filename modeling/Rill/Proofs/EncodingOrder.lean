import Mathlib.Data.List.Lex
import Rill.Value.Operation

/-!
# The order of encoded strings

Strings are ordered character by character. Their code points (`codePoints_lex_iff`) and their
encodings in UTF-8 (`bytes_lex_iff`) are in the same order, because each writes a smaller character
smaller (`KeepsOrder`). The encoding of a character is a leading byte and continuations of six bits
each (`continued`), so of two characters of one length the greater has the greater bits at the first
byte that differs, and the leading bytes of longer encodings are greater.
-/

namespace Rill.Encoding

/-! ## Leading bytes and continuations -/

/-- A leading byte : a mark and the bits that are left. -/
def lead (bound mark : Nat) (v : Nat) : List UInt8 := [UInt8.ofNat (v % bound + mark)]

/-- The last six bits in a byte of their own. -/
def continued (f : Nat → List UInt8) (v : Nat) : List UInt8 :=
  f (v / 64) ++ [UInt8.ofNat (v % 64 + 128)]

/-- The encodings of a length are ordered as the numbers below a bound, whatever follows them. -/
def Ascends (bound : Nat) (f : Nat → List UInt8) : Prop :=
  ∀ v w, v < w → w < bound → ∀ xs ys, List.Lex (· < ·) (f v ++ xs) (f w ++ ys)

/-- The encodings of a length begin with a byte of a range. -/
def Leads (low high : Nat) (f : Nat → List UInt8) : Prop :=
  ∀ v, ∃ b rest, f v = b :: rest ∧ low ≤ b.toNat ∧ b.toNat < high

variable {bound mark low high low' high' : Nat} {f g : Nat → List UInt8}

theorem ascends_lead (h : bound + mark ≤ 256) : Ascends bound (lead bound mark) := by
  intro v w hlt hw xs ys
  refine List.Lex.rel (UInt8.lt_iff_toNat_lt.2 ?_)
  rw [UInt8.toNat_ofNat', UInt8.toNat_ofNat', Nat.mod_eq_of_lt hw,
    Nat.mod_eq_of_lt (Nat.lt_trans hlt hw)]
  omega

/-- The rest of the bits decides, and where it is the same the last six do. -/
theorem Ascends.continued (h : Ascends bound f) : Ascends (64 * bound) (continued f) := by
  intro v w hlt hw xs ys
  simp only [Encoding.continued, List.append_assoc]
  rcases Nat.lt_or_ge (v / 64) (w / 64) with hdiv | hdiv
  · exact h _ _ hdiv (by omega) _ _
  · have heq : v / 64 = w / 64 := by omega
    rw [heq]
    refine .append_left _ (.rel (UInt8.lt_iff_toNat_lt.2 ?_)) _
    rw [UInt8.toNat_ofNat', UInt8.toNat_ofNat']
    omega

theorem leads_lead (hpos : 0 < bound) (h : bound + mark ≤ 256) :
    Leads mark (bound + mark) (lead bound mark) := by
  intro v
  have hmod := Nat.mod_lt v hpos
  refine ⟨_, _, rfl, ?_⟩
  rw [UInt8.toNat_ofNat']
  omega

theorem Leads.continued (h : Leads low high f) : Leads low high (continued f) := by
  intro v
  obtain ⟨b, rest, hf, hb⟩ := h (v / 64)
  exact ⟨b,
    rest ++ [UInt8.ofNat (v % 64 + 128)], by rw [Encoding.continued, hf, List.cons_append], hb⟩

/-- Encodings of different lengths are told apart by the first byte. -/
theorem Leads.lt (h : Leads low high f) (h' : Leads low' high' g) (hle : high ≤ low') (v w : Nat)
    (xs ys : List UInt8) : List.Lex (· < ·) (f v ++ xs) (g w ++ ys) := by
  obtain ⟨b, rest, hf, -, hb⟩ := h v
  obtain ⟨b', rest', hg, hb', -⟩ := h' w
  rw [hf, hg]
  exact .rel (UInt8.lt_iff_toNat_lt.2 (by omega))

/-! ## Characters -/

/-- How many bytes an encoding has. -/
inductive Size where
  | one
  | two
  | three
  | four
deriving DecidableEq

namespace Size

/-- The size of the encoding of a number. -/
def of (v : Nat) : Size :=
  if v < 128 then .one else if v < 2048 then .two else if v < 65536 then .three else .four

/-- The encoding of a size. -/
def encode : Size → Nat → List UInt8
  | .one => lead 128 0
  | .two => Encoding.continued (lead 32 192)
  | .three => Encoding.continued (Encoding.continued (lead 16 224))
  | .four => Encoding.continued (Encoding.continued (Encoding.continued (lead 8 240)))

/-- Where the numbers begin. -/
def least : Size → Nat
  | .one => 0
  | .two => 128
  | .three => 2048
  | .four => 65536

/-- Where the numbers end for which there are bits enough. -/
def limit : Size → Nat
  | .one => 128
  | .two => 64 * 32
  | .three => 64 * (64 * 16)
  | .four => 64 * (64 * (64 * 8))

/-- Where the leading bytes begin. -/
def first : Size → Nat
  | .one => 0
  | .two => 192
  | .three => 224
  | .four => 240

/-- Where the leading bytes end. -/
def last : Size → Nat
  | .one => 128
  | .two => 32 + 192
  | .three => 16 + 224
  | .four => 8 + 240

/-- The encodings of one size are ordered as the numbers. -/
theorem ascends_encode (s : Size) : Ascends s.limit s.encode := by
  cases s with
  | one => exact ascends_lead (by decide)
  | two => exact (ascends_lead (by decide)).continued
  | three => exact (ascends_lead (by decide)).continued.continued
  | four => exact (ascends_lead (by decide)).continued.continued.continued

/-- The leading byte tells the size of an encoding. -/
theorem leads_encode (s : Size) : Leads s.first s.last s.encode := by
  cases s with
  | one => exact leads_lead (by decide) (by decide)
  | two => exact (leads_lead (by decide) (by decide)).continued
  | three => exact (leads_lead (by decide) (by decide)).continued.continued
  | four => exact (leads_lead (by decide) (by decide)).continued.continued.continued

theorem lt_limit {v : Nat} (h : v < 1114112) : v < (of v).limit := by
  unfold of
  repeat' split
  all_goals simp only [limit]; omega

theorem least_le (v : Nat) : (of v).least ≤ v := by
  unfold of
  repeat' split
  all_goals simp only [least]; omega

/-- Of different sizes the one of the smaller numbers has the smaller leading bytes. -/
theorem last_le_first {s t : Size} (hne : s ≠ t) (h : s.least < t.limit) : s.last ≤ t.first := by
  revert hne h
  cases s <;> cases t <;> decide

end Size

/-- The encoding of a character has the size of its number. -/
theorem utf8EncodeChar_eq (c : Char) :
    String.utf8EncodeChar c = (Size.of c.toNat).encode c.toNat := by
  have hdiv : c.toNat / 64 / 64 = c.toNat / 4096 := Nat.div_div_eq_div_mul _ 64 64
  have hdiv' : c.toNat / 4096 / 64 = c.toNat / 262144 := Nat.div_div_eq_div_mul _ 4096 64
  unfold String.utf8EncodeChar Size.of
  change (if c.toNat ≤ 127 then _ else if c.toNat ≤ 2047 then _
    else if c.toNat ≤ 65535 then _ else _) = _
  simp only [← Nat.lt_succ_iff]
  split
  next h => simp [Size.encode, lead, Nat.mod_eq_of_lt h]
  next =>
    split
    next => rfl
    next =>
      split
      next => simp [Size.encode, lead, Encoding.continued, hdiv]
      next => simp [Size.encode, lead, Encoding.continued, hdiv, hdiv']

theorem toNat_lt (c : Char) : c.toNat < 1114112 := by
  have hvalid : c.toNat.isValidChar := c.valid
  unfold Nat.isValidChar at hvalid
  omega

/-- The encoding of the smaller character is the smaller one, whatever follows. -/
theorem utf8EncodeChar_lt {c d : Char} (h : c < d) (xs ys : List UInt8) :
    List.Lex (· < ·) (String.utf8EncodeChar c ++ xs) (String.utf8EncodeChar d ++ ys) := by
  have hlt : c.toNat < d.toNat := h
  rw [utf8EncodeChar_eq, utf8EncodeChar_eq]
  have hlimit := Size.lt_limit (toNat_lt d)
  by_cases hsize : Size.of c.toNat = Size.of d.toNat
  · rw [hsize]
    exact (Size.of d.toNat).ascends_encode _ _ hlt hlimit xs ys
  · have hleast := Nat.lt_of_le_of_lt (Size.least_le c.toNat) (Nat.lt_trans hlt hlimit)
    exact (Size.leads_encode _).lt (Size.leads_encode _) (Size.last_le_first hsize hleast) _ _ xs ys

/-! ## Strings -/

/-- A way to write characters in which the smaller one is written smaller, whatever follows. -/
structure KeepsOrder {α : Type} [LT α] (write : Char → List α) : Prop where
  ne_nil : ∀ c, write c ≠ []
  lt : ∀ {c d}, c < d → ∀ xs ys, List.Lex (· < ·) (write c ++ xs) (write d ++ ys)

section KeepsOrder

variable {α : Type} [LT α] {write : Char → List α}

/-- Characters that are written one after the other keep their order. -/
theorem KeepsOrder.flatMap (h : KeepsOrder write) {cs ds : List Char}
    (hlt : List.Lex (· < ·) cs ds) :
    List.Lex (· < ·) (cs.flatMap write) (ds.flatMap write) := by
  induction hlt with
  | @nil d ds =>
    obtain ⟨x, xs, hwrite⟩ := List.exists_cons_of_ne_nil (h.ne_nil d)
    rw [List.flatMap_cons, hwrite]
    exact .nil
  | cons _ ih => exact .append_left _ ih _
  | rel hlt => exact h.lt hlt _ _

variable [@Std.Irrefl α (· < ·)] [@Trans α α α (· < ·) (· < ·) (· < ·)]

/-- Strings are in the order of what is written for them. -/
theorem KeepsOrder.lex_iff (h : KeepsOrder write) (s t : String) :
    List.Lex (· < ·) (s.toList.flatMap write) (t.toList.flatMap write) ↔ s < t := by
  have hmono : ∀ {s t : String}, s < t →
      List.Lex (· < ·) (s.toList.flatMap write) (t.toList.flatMap write) :=
    fun hlt => h.flatMap (String.lt_iff.1 hlt)
  have hirrefl : ∀ {xs : List α}, ¬ List.Lex (· < ·) xs xs := fun {xs} => List.lt_irrefl xs
  refine ⟨fun hlex => ?_, hmono⟩
  rcases Std.lt_trichotomy s t with hst | rfl | hts
  · exact hst
  · exact absurd hlex hirrefl
  · exact absurd (List.lt_trans hlex (hmono hts)) hirrefl

end KeepsOrder

/-- The numbers of the characters. -/
def codePoints (s : String) : List Nat := s.toList.map Char.toNat

/-- The bytes of a string. -/
def bytes (s : String) : List UInt8 := s.toUTF8.data.toList

theorem keepsOrder_toNat : KeepsOrder fun c => [c.toNat] where
  ne_nil _ := List.cons_ne_nil _ _
  lt h _ _ := .rel h

theorem keepsOrder_utf8EncodeChar : KeepsOrder String.utf8EncodeChar where
  ne_nil c := by
    obtain ⟨b, rest, hencode, -⟩ := Size.leads_encode (Size.of c.toNat) c.toNat
    rw [utf8EncodeChar_eq, hencode]
    exact List.cons_ne_nil _ _
  lt := utf8EncodeChar_lt

theorem codePoints_eq (s : String) : codePoints s = s.toList.flatMap fun c => [c.toNat] :=
  List.map_eq_flatMap

theorem bytes_eq (s : String) : bytes s = s.toList.flatMap String.utf8EncodeChar := by
  have hbytes : s.toUTF8 = s.toList.utf8Encode := String.utf8Encode_toList.symm
  rw [bytes, hbytes, List.utf8Encode, List.data_toByteArray]

/-- Strings are in the lexicographic order of their code points. -/
theorem codePoints_lex_iff (s t : String) :
    List.Lex (· < ·) (codePoints s) (codePoints t) ↔ s < t := by
  rw [codePoints_eq, codePoints_eq]
  exact keepsOrder_toNat.lex_iff s t

/-- Strings are in the lexicographic order of their bytes. -/
theorem bytes_lex_iff (s t : String) : List.Lex (· < ·) (bytes s) (bytes t) ↔ s < t := by
  rw [bytes_eq, bytes_eq]
  exact keepsOrder_utf8EncodeChar.lex_iff s t

end Rill.Encoding
