import Rill.Proofs.IntegerArithmetic
import Rill.Proofs.ValueOrder

/-!
# Strings by their characters

The operations on strings speak of characters, however many bytes a character takes : `length`
counts them, a subscript takes the one at an index, `+` puts the characters of one string after
those of another, and `==` compares them. Indices are integers of 64 bits, so they may be negative
or lie far past the end; `Value.charAt?` gives a character for an index in range and nothing for any
other (`Value.charAt?_eq_none_iff`).

The laws between the operations come from two facts about `Value.charAt?` : what it gives of a
joined string, before the place where the two meet (`Value.charAt?_append_left`) and from there on
(`Value.charAt?_append_right`), where the index with the length of the first string taken off is
exact, as it cannot be below zero.
-/

namespace Rill

theorem represents_ofNat (n : Nat) : Represents (Int64.ofNat n) n := .of_eq_bmod Int64.toInt_ofNat'

namespace Value

variable {a b s : String} {i : Int64} {c : Char}

/-! ## The character at an index -/

/-- A subscript gives the character at its index. -/
theorem charAt?_eq_some_iff :
    charAt? s i = some c ↔ 0 ≤ i.toInt ∧ s.toList[i.toInt.toNat]? = some c := by
  have hneg : i < 0 ↔ ¬0 ≤ i.toInt := by
    rw [Int64.lt_iff_toInt_lt, Int64.toInt_zero, Int.not_le]
  unfold charAt?
  split
  next h => simp [hneg.1 h]
  next h => simp [not_not.1 (mt hneg.2 h)]

/-- There is a character at each index in range. -/
theorem exists_charAt?_iff : (∃ c, charAt? s i = some c) ↔ 0 ≤ i.toInt ∧ i.toInt < s.length := by
  simp only [charAt?_eq_some_iff, exists_and_left]
  refine and_congr_right fun hpos => ?_
  rw [← Option.isSome_iff_exists, isSome_getElem?, String.length_toList, Int.toNat_lt hpos]

theorem charAt?_eq_none_iff : charAt? s i = none ↔ ¬(0 ≤ i.toInt ∧ i.toInt < s.length) := by
  rw [← exists_charAt?_iff, ← Option.isSome_iff_exists, Option.not_isSome_iff_eq_none]

/-- The characters of the first string stay where they are. -/
theorem charAt?_append_left (h : i.toInt < a.length) : charAt? (a ++ b) i = charAt? a i := by
  refine Option.ext fun c => ?_
  rw [charAt?_eq_some_iff, charAt?_eq_some_iff]
  refine and_congr_right fun hpos => ?_
  have hlt : i.toInt.toNat < a.toList.length := by
    rwa [String.length_toList, Int.toNat_lt hpos]
  rw [String.toList_append, List.getElem?_append_left hlt]

/-- An index that is not before the end of the first string can have its length taken
off without wrapping. -/
theorem toInt_sub_ofNat {n : Nat} (h : n ≤ i.toInt) : (i - Int64.ofNat n).toInt = i.toInt - n := by
  have hi := i.toInt_lt
  rw [Int64.toInt_sub, Int64.toInt_ofNat_of_lt (by omega)]
  exact Int.bmod_eq_of_le (by omega) (by omega)

/-- Those of the second one come after them. -/
theorem charAt?_append_right (h : a.length ≤ i.toInt) :
    charAt? (a ++ b) i = charAt? b (i - Int64.ofNat a.length) := by
  have hle : a.toList.length ≤ i.toInt.toNat := by
    rw [String.length_toList]
    omega
  have hindex : (i.toInt - a.length).toNat = i.toInt.toNat - a.length := by omega
  refine Option.ext fun c => ?_
  rw [charAt?_eq_some_iff, charAt?_eq_some_iff, toInt_sub_ofNat h, String.toList_append,
    List.getElem?_append_right hle, String.length_toList, hindex]
  refine and_congr_left fun _ => ?_
  omega

/-- Strings that an index can reach to their ends are told apart by their characters. -/
theorem eq_of_charAt?_eq (ha : a.length ≤ 2 ^ 63) (hb : b.length ≤ 2 ^ 63)
    (h : ∀ i, charAt? a i = charAt? b i) :
    a = b := by
  rw [← String.toList_inj]
  refine List.ext_getElem? fun k => ?_
  rcases Nat.lt_or_ge k (2 ^ 63) with hk | hk
  · have hindex : (Int64.ofNat k).toInt = k := Int64.toInt_ofNat_of_lt hk
    refine Option.ext fun c => ?_
    have hchar := Option.ext_iff.1 (h (.ofNat k)) c
    simpa [charAt?_eq_some_iff, hindex] using hchar
  · rw [List.getElem?_eq_none (by rw [String.length_toList]; omega),
      List.getElem?_eq_none (by rw [String.length_toList]; omega)]

/-! ## Operations -/

theorem subscript_eq_ok_iff {v : Value} :
    subscript (.string s) (.int i) = .ok v ↔ ∃ c, charAt? s i = some c ∧ v = .char c := by
  simp only [subscript]
  cases charAt? s i with
  | none => simp
  | some c => simp [eq_comm]

theorem subscript_eq_char_iff :
    subscript (.string s) (.int i) = .ok (.char c) ↔ charAt? s i = some c := by
  simp [subscript_eq_ok_iff]

/-- What subscripts give of a string with the characters `cs` : the character at an index in range,
and the fault that the index is out of range at any other. -/
structure Subscripts (v : Value) (cs : List Char) : Prop where
  char_iff : ∀ i c, subscript v (.int i) = .ok (.char c) ↔ 0 ≤ i.toInt ∧ cs[i.toInt.toNat]? = some c
  inRange_iff : ∀ i, (∃ c, subscript v (.int i) = .ok (.char c)) ↔ 0 ≤ i.toInt ∧ i.toInt < cs.length
  outOfRange : ∀ i : Int64, ¬(0 ≤ i.toInt ∧ i.toInt < cs.length) →
    subscript v (.int i) = .error (.indexOutOfRange i cs.length)

/-- The subscripts of a string give its characters. -/
theorem subscripts_string (s : String) : Subscripts (.string s) s.toList where
  char_iff i c := subscript_eq_char_iff.trans charAt?_eq_some_iff
  inRange_iff i := by
    simp only [subscript_eq_char_iff, exists_charAt?_iff, String.length_toList]
  outOfRange i h := by
    rw [String.length_toList] at *
    simp only [subscript, charAt?_eq_none_iff.2 h]

theorem binary_eq_string (a b : String) :
    binary (.compare .eq) (.string a) (.string b) = .ok (.bool (decide (a = b))) := by
  have hiff : Comparison.eq.holds (stringOrder a b) = true ↔ Value.string a = .string b :=
    OrderedKind.string.holds_eq_iff
  have hholds : Comparison.eq.holds (stringOrder a b) = decide (a = b) := by
    rw [Bool.eq_iff_iff, hiff, decide_eq_true_iff]
    exact ⟨fun h => by injection h, congrArg _⟩
  exact congrArg (fun same => Except.ok (Value.bool same)) hholds

/-- The operations on strings agree in what the characters of a string are. `length` gives the
number of characters, as the integer that represents it, and the length of a joined string is the
sum of the lengths. A subscript gives a character at the indices from zero up to the number of
characters, and any other index is out of range. The character of a joined string is that of the
first string at an index before its end, and that of the second string at the index with the length
of the first one taken off from there on. Strings are equal if and only if they have as many
characters and the same one at every index; if no string is longer than indices reach, that is what
`length` and subscripts show. -/
theorem strings_cohere (a b : String) :
    ∃ joined m n,
      binary (.arith .add) (.string a) (.string b) = .ok joined ∧
      member (.string a) "length" = .ok (.int m) ∧ Represents m a.length ∧
      member (.string b) "length" = .ok (.int n) ∧ Represents n b.length ∧
      (∃ sum, binary (.arith .add) (.int m) (.int n) = .ok sum ∧ member joined "length" = .ok sum) ∧
      Subscripts (.string a) a.toList ∧ Subscripts joined (a.toList ++ b.toList) ∧
      (∀ i : Int64, i.toInt < a.length →
        ∀ v, subscript joined (.int i) = .ok v ↔ subscript (.string a) (.int i) = .ok v) ∧
      (∀ i : Int64, a.length ≤ i.toInt → ∃ j, binary (.arith .sub) (.int i) (.int m) = .ok j ∧
        ∀ v, subscript joined (.int i) = .ok v ↔ subscript (.string b) j = .ok v) ∧
      ∃ same, binary (.compare .eq) (.string a) (.string b) = .ok (.bool same) ∧
        (same = true ↔ a.length = b.length ∧ ∀ k : Nat, a.toList[k]? = b.toList[k]?) ∧
        (a.length ≤ 2 ^ 63 → b.length ≤ 2 ^ 63 →
          (same = true ↔ m = n ∧ ∀ i c, subscript (.string a) (.int i) = .ok (.char c) ↔
            subscript (.string b) (.int i) = .ok (.char c))) := by
  have hsum : Int64.ofNat (a ++ b).length = Int64.ofNat a.length + Int64.ofNat b.length := by
    rw [String.length_append, Int64.ofNat_add]
  have hjoined : Subscripts (.string (a ++ b)) (a.toList ++ b.toList) := by
    rw [← String.toList_append]
    exact subscripts_string (a ++ b)
  refine ⟨.string (a ++ b), .ofNat a.length, .ofNat b.length, rfl, rfl, represents_ofNat _, rfl,
    represents_ofNat _, ⟨_, rfl, congrArg (fun l => Except.ok (Value.int l)) hsum⟩,
    subscripts_string a, hjoined, fun i hi v => ?_, fun i hi =>
      ⟨_, rfl, fun v => ?_⟩, _, binary_eq_string a b, ?_, fun ha hb => ?_⟩
  · rw [subscript_eq_ok_iff, subscript_eq_ok_iff, charAt?_append_left hi]
  · rw [subscript_eq_ok_iff, subscript_eq_ok_iff, charAt?_append_right hi]
  · rw [decide_eq_true_iff, ← String.toList_inj]
    refine ⟨fun h => ⟨?_, fun k => by rw [h]⟩, fun h => List.ext_getElem? h.2⟩
    rw [← String.length_toList, h, String.length_toList]
  · rw [decide_eq_true_iff]
    refine ⟨fun h => ?_, fun h => eq_of_charAt?_eq ha hb fun i => Option.ext fun c => ?_⟩
    · subst h
      exact ⟨rfl, fun _ _ => Iff.rfl⟩
    · rw [← subscript_eq_char_iff, ← subscript_eq_char_iff]
      exact h.2 i c

/-- Characters of several bytes on both sides of the place where two strings meet, an index below
zero and one far past the end. -/
theorem strings_cohere_meeting :
    let joined := Value.string "hé€llo"
    binary (.arith .add) (.string "hé€") (.string "llo") = .ok joined ∧
      (∃ c, subscript joined (.int 2) = .ok (.char c)) ∧
      subscript joined (.int 2) = .ok (.char '€') ∧ subscript joined (.int 3) = .ok (.char 'l') ∧
      subscript joined (.int (-1)) = .error (.indexOutOfRange (-1) 6) ∧
      subscript joined (.int Int64.maxValue) = .error (.indexOutOfRange Int64.maxValue 6) ∧
      ∃ same, binary (.compare .eq) (.string "hé€") (.string "llo") = .ok (.bool same) ∧
      same = false := by
  intro joined
  obtain ⟨v, m, n, hv, hm, -, -, -, -, -, hsubscripts, hleft, hright, same, hsame, -, hiff⟩ :=
    strings_cohere "hé€" "llo"
  cases hv
  cases hm
  obtain ⟨j, hj, hlast⟩ := hright 3 (by decide)
  cases hj
  refine ⟨rfl, (hsubscripts.inRange_iff 2).2 (by decide), (hleft 2 (by decide) _).2 rfl,
    (hlast _).2 rfl, hsubscripts.outOfRange (-1) (by decide), hsubscripts.outOfRange _ (by decide),
    same, hsame, ?_⟩
  rw [← Bool.not_eq_true, hiff (by decide) (by decide)]
  intro h
  cases (h.2 0 'h').1 rfl

end Value

end Rill
