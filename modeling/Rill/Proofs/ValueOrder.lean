import Rill.Proofs.EncodingOrder

/-!
# Comparisons order the values of a kind

Truth values, integers, characters and strings are compared by an ordering of their own. The six
operators read the ordering off, so they are the comparisons of one linear order of each kind.
`OrderedKind` is what a kind brings : a type that stands for its values, a lawful ordering of
it, and that the operators follow the ordering. The laws are proved of `OrderedKind`, and each
of the four kinds is one.

For strings the order is the one of code points, which is also the one of the bytes in UTF-8.
-/

namespace Rill

namespace Comparison

/-- The comparison that holds where another one does not. -/
def negation : Comparison → Comparison
  | .eq => .ne
  | .ne => .eq
  | .lt => .ge
  | .le => .gt
  | .gt => .le
  | .ge => .lt

/-- A comparison and its negation never give the same. -/
theorem holds_negation (c : Comparison) (o : Ordering) : c.negation.holds o = !c.holds o := by
  cases c <;> cases o <;> rfl

/-- Of `<`, `==` and `>` just one holds. -/
theorem count_holds (o : Ordering) :
    [Comparison.lt.holds o, Comparison.eq.holds o, Comparison.gt.holds o].count true = 1 := by
  cases o <;> rfl

theorem holds_lt_swap (o : Ordering) : Comparison.lt.holds o.swap = Comparison.gt.holds o := by
  cases o <;> rfl

theorem holds_eq_iff {o : Ordering} : Comparison.eq.holds o = true ↔ o = .eq := beq_iff_eq

theorem holds_lt_iff {o : Ordering} : Comparison.lt.holds o = true ↔ o = .lt := beq_iff_eq

end Comparison

namespace Value

instance : Std.TransCmp boolOrder where
  eq_swap := by decide
  isLE_trans := by decide

instance : Std.LawfulEqCmp boolOrder where
  compare_self := by decide
  eq_of_compare := by decide

instance : Std.TransCmp intOrder := Int64.instTransOrd

instance : Std.LawfulEqCmp intOrder := Int64.instLawfulEqOrd

instance : Std.TransCmp charOrder := Char.instTransOrd

instance : Std.LawfulEqCmp charOrder := Char.instLawfulEqOrd

instance : Std.TransCmp stringOrder := String.instTransOrd

instance : Std.LawfulEqCmp stringOrder := String.instLawfulEqOrd

/-! ## Ordered kinds -/

/-- A comparison of two values gives `true`. -/
def Holds (c : Comparison) (a b : Value) : Prop := binary (.compare c) a b = .ok (.bool true)

/-- What `<`, `==` and `>` give for two values, one of them `true`, and what the other
comparisons give then. -/
structure Compared (a b : Value) (less same more : Bool) : Prop where
  lt : binary (.compare .lt) a b = .ok (.bool less)
  eq : binary (.compare .eq) a b = .ok (.bool same)
  gt : binary (.compare .gt) a b = .ok (.bool more)
  count_eq_one : [less, same, more].count true = 1
  le : binary (.compare .le) a b = .ok (.bool !more)
  ge : binary (.compare .ge) a b = .ok (.bool !less)
  ne : binary (.compare .ne) a b = .ok (.bool !same)
  same_iff : same = true ↔ a = b
  swap : binary (.compare .lt) b a = .ok (.bool more)

/-- A kind whose values are compared by an ordering of a type that stands for them. -/
structure OrderedKind (kind : ValueKind) where
  Carrier : Type
  of : Carrier → Value
  order : Carrier → Carrier → Ordering
  trans : Std.TransCmp order := by infer_instance
  lawful : Std.LawfulEqCmp order := by infer_instance
  injective : ∀ {x y}, of x = of y → x = y := by intro x y h; injection h
  exists_of : ∀ {a : Value}, a.kind = kind → ∃ x, a = of x
  binary_of : ∀ c x y, binary (.compare c) (of x) (of y) = .ok (.bool (c.holds (order x y))) := by
    intros; rfl

namespace OrderedKind

variable {kind : ValueKind}

/-- A comparison of two values holds just when it does of their ordering. -/
theorem holds_iff (K : OrderedKind kind) {c : Comparison} {x y : K.Carrier} :
    Holds c (K.of x) (K.of y) ↔ c.holds (K.order x y) = true := by
  rw [Holds, K.binary_of]
  exact ⟨fun h => by injection h with h; injection h, fun h => by rw [h]⟩

theorem holds_eq_iff (K : OrderedKind kind) {x y : K.Carrier} :
    Comparison.eq.holds (K.order x y) = true ↔ K.of x = K.of y := by
  have := K.lawful
  rw [Comparison.holds_eq_iff, Std.LawfulEqCmp.compare_eq_iff_eq]
  exact ⟨congrArg K.of, K.injective⟩

/-- Two values of an ordered kind can be compared. -/
theorem exists_compared (K : OrderedKind kind) {a b : Value} (ha : a.kind = kind)
    (hb : b.kind = kind) :
    ∃ less same more, Compared a b less same more := by
  obtain ⟨x, rfl⟩ := K.exists_of ha
  obtain ⟨y, rfl⟩ := K.exists_of hb
  have := K.trans
  have hnegation : ∀ c : Comparison, binary (.compare c.negation) (K.of x) (K.of y) =
      .ok (.bool !c.holds (K.order x y)) := fun c => by
    rw [K.binary_of, Comparison.holds_negation]
  have hswap : K.order y x = (K.order x y).swap := Std.OrientedCmp.eq_swap
  exact ⟨_, _, _, {
    lt := K.binary_of _ x y
    eq := K.binary_of _ x y
    gt := K.binary_of _ x y
    count_eq_one := Comparison.count_holds _
    le := hnegation .gt
    ge := hnegation .lt
    ne := hnegation .eq
    same_iff := K.holds_eq_iff
    swap := by rw [K.binary_of, hswap, Comparison.holds_lt_swap] }⟩

/-- The order of a kind is transitive. -/
theorem holds_lt_trans (K : OrderedKind kind) {a b c : Value} (ha : a.kind = kind)
    (hb : b.kind = kind) (hc : c.kind = kind) (hab : Holds .lt a b) (hbc : Holds .lt b c) :
    Holds .lt a c := by
  obtain ⟨x, rfl⟩ := K.exists_of ha
  obtain ⟨y, rfl⟩ := K.exists_of hb
  obtain ⟨z, rfl⟩ := K.exists_of hc
  rw [K.holds_iff, Comparison.holds_lt_iff] at *
  have := K.trans
  exact Std.TransCmp.lt_trans hab hbc

/-- Truth values are ordered, and so are integers, characters and strings. -/
def bool : OrderedKind .bool where
  Carrier := Bool
  of := .bool
  order := boolOrder
  exists_of {a} h := by
    cases a with
    | bool x => exact ⟨x, rfl⟩
    | _ => cases h

def int : OrderedKind .int where
  Carrier := Int64
  of := .int
  order := intOrder
  exists_of {a} h := by
    cases a with
    | int x => exact ⟨x, rfl⟩
    | _ => cases h

def char : OrderedKind .char where
  Carrier := Char
  of := .char
  order := charOrder
  exists_of {a} h := by
    cases a with
    | char x => exact ⟨x, rfl⟩
    | _ => cases h

def string : OrderedKind .string where
  Carrier := String
  of := .string
  order := stringOrder
  exists_of {a} h := by
    cases a with
    | string x => exact ⟨x, rfl⟩
    | _ => cases h

end OrderedKind

/-- The kinds that are ordered. -/
def orderedKinds : List ValueKind := [.bool, .int, .char, .string]

theorem nonempty_orderedKind {kind : ValueKind} (h : kind ∈ orderedKinds) :
    Nonempty (OrderedKind kind) := by
  cases kind with
  | bool => exact ⟨.bool⟩
  | int => exact ⟨.int⟩
  | char => exact ⟨.char⟩
  | string => exact ⟨.string⟩
  | null | float | function => simp [orderedKinds] at h

/-! ## Strings -/

theorem holds_lt_string {s t : String} : Holds .lt (.string s) (.string t) ↔ s < t :=
  (OrderedKind.string.holds_iff.trans Comparison.holds_lt_iff).trans compareOfLessAndEq_eq_lt

/-- A string comes before all longer ones that start with it. -/
theorem lt_append (s : String) {t : String} (h : t ≠ "") : s < s ++ t := by
  rw [String.lt_iff, String.toList_append]
  obtain ⟨c, cs, hcons⟩ :=
    List.exists_cons_of_ne_nil (fun hnil => h (String.toList_eq_nil_iff.1 hnil))
  have hlex : List.Lex (· < ·) (s.toList ++ []) (s.toList ++ t.toList) :=
    .append_left _ (hcons ▸ .nil) _
  rwa [List.append_nil] at hlex

/-- The comparisons of each ordered kind are those of one linear order. On strings it is the
lexicographic order of code points, and as well of bytes. -/
theorem comparisons_total :
    (∀ a b : Value, a.kind = b.kind → a.kind ∈ orderedKinds →
      ∃ less same more, Compared a b less same more) ∧
      (∀ a b c : Value, a.kind = b.kind → b.kind = c.kind → a.kind ∈ orderedKinds →
        Holds .lt a b → Holds .lt b c → Holds .lt a c) ∧
      (∀ s t : String,
        (Holds .lt (.string s) (.string t) ↔
          List.Lex (· < ·) (Encoding.codePoints s) (Encoding.codePoints t)) ∧
        (Holds .lt (.string s) (.string t) ↔
          List.Lex (· < ·) (Encoding.bytes s) (Encoding.bytes t))) ∧
      ∀ s t : String, t ≠ "" →
        ∃ joined, binary (.arith .add) (.string s) (.string t) = .ok joined ∧
        Holds .lt (.string s) joined := by
  refine ⟨fun a b hkind hordered => ?_, fun a b c hab hbc hordered => ?_, fun s t => ⟨?_, ?_⟩,
    fun s t hne => ?_⟩
  · obtain ⟨K⟩ := nonempty_orderedKind hordered
    exact K.exists_compared rfl hkind.symm
  · obtain ⟨K⟩ := nonempty_orderedKind hordered
    exact K.holds_lt_trans rfl hab.symm (hab.trans hbc).symm
  · rw [holds_lt_string, Encoding.codePoints_lex_iff]
  · rw [holds_lt_string, Encoding.bytes_lex_iff]
  · exact ⟨.string (s ++ t), rfl, holds_lt_string.2 (lt_append s hne)⟩

/-- Integers from one end of the range to the other, and characters whose encodings have
different lengths. -/
theorem comparisons_total_ends :
    (∃ less same more, Compared (.char 'z') (.char 'é') less same more) ∧
      Holds .lt (.int Int64.minValue) (.int Int64.maxValue) ∧
      Holds .lt (.string "z") (.string "é") ∧
      ∃ joined, binary (.arith .add) (.string "z") (.string "é") = .ok joined ∧
      Holds .lt (.string "z") joined :=
  ⟨comparisons_total.1 _ _ rfl (by decide),
    comparisons_total.2.1 _ (.int 0) _ rfl rfl (by decide) rfl rfl,
    (comparisons_total.2.2.1 "z" "é").1.2 (.rel (by decide)),
    comparisons_total.2.2.2 "z" "é" (by decide)⟩

end Value

end Rill
