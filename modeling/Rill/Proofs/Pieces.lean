import Rill.Proofs.LexErrors

/-!
# Pieces of a text

A text that is cut right after a lexeme has the same lexemes up to there : what `scan` finds
does not depend on what comes after the characters that it takes (`scan_of_append`). So the
piece of a text from one token to another is cut into the same tokens when it is taken as a text
of its own, and their locations are those of the piece, counted from where the piece starts
(`Location.onto`, `Walk.cut`).

`Buffer.exists_piece` says so of the tokens that carry meaning : the text of the range across some
of them that follow each other has these tokens.
-/

namespace Rill

/-! ## One lexeme -/

namespace Scan

variable {cs more : List Char}

/-- A run that ends inside a piece of the text is the run of the piece. -/
theorem takeWhile_of_append {test : Char → Bool}
    (h : ((cs ++ more).takeWhile test).length ≤ cs.length) :
    (cs ++ more).takeWhile test = cs.takeWhile test := by
  rw [List.takeWhile_append] at h ⊢
  split
  next hall =>
    rw [if_pos hall, List.length_append] at h
    have hnone : more.takeWhile test = [] := List.eq_nil_of_length_eq_zero (by omega)
    rw [hnone, List.append_nil, (List.takeWhile_prefix test).eq_of_length hall]
  next => rfl

/-- Digits are parts of words. -/
theorem inWord_of_isDigit {c : Char} (h : Text.isDigit c) : inWord c := by
  have hascii : c.toNat < 0x80 := by
    simp only [Text.isDigit, Bool.and_eq_true, decide_eq_true_eq, Char.le_def,
      UInt32.le_iff_toNat_le] at h
    have hnine : ('9' : Char).val.toNat = 57 := rfl
    exact Nat.lt_of_le_of_lt h.2 (by rw [hnine]; decide)
  simp [inWord, Text.isAlphanumeric, Text.isNumeric, hascii, h]

/-- A number that starts with a part of a word takes something. -/
theorem numberLength_pos (plain whole : Bool) {c : Char} (h : inWord c) (cs : List Char) :
    0 < numberLength plain whole (c :: cs) := by
  rw [numberLength.eq_def]
  simp only [h, if_true]
  split
  · cases cs with
    | nil => exact Nat.one_pos
    | cons s rest =>
      dsimp only
      split <;> omega
  · omega

theorem digitNext_append_of (h : digitNext cs = true) (more : List Char) :
    digitNext (cs ++ more) = true := by
  cases cs with
  | nil => cases h
  | cons d cs => exact h

/-- A digit that comes next in a text comes next in its piece, unless the piece is over. -/
theorem digitNext_of_append (h : digitNext (cs ++ more) = true) :
    digitNext cs = true ∨ cs = [] ∧ ∀ plain whole, 0 < numberLength plain whole more := by
  cases cs with
  | cons d cs => exact .inl h
  | nil =>
    cases more with
    | nil => cases h
    | cons d more =>
      exact .inr ⟨rfl, fun plain whole => numberLength_pos plain whole (inWord_of_isDigit h) more⟩

/-- A number that ends in a text is the same without what comes after the text. -/
theorem numberLength_of_append (plain whole : Bool)
    (h : numberLength plain whole (cs ++ more) ≤ cs.length) :
    numberLength plain whole (cs ++ more) = numberLength plain whole cs := by
  fun_induction numberLength plain whole cs with
  | case1 whole => exact Nat.le_zero.1 h
  | case2 whole c hc he =>
    rw [List.cons_append, List.nil_append] at h ⊢
    rw [numberLength.eq_def] at h ⊢
    simp only [hc, he, if_true] at h ⊢
    cases more with
    | nil => rfl
    | cons s rest =>
      dsimp only [List.length_singleton] at h ⊢
      split at h
      · omega
      next hs =>
        rw [if_neg hs]
        omega
  | case3 whole c hc he s cs hs ih =>
    have hdigit := digitNext_append_of (Bool.and_eq_true_iff.1 hs).2 more
    have hs' : ((s == '+' || s == '-') && digitNext (cs ++ more)) = true := by simp_all
    rw [List.cons_append, List.cons_append, numberLength.eq_def] at h ⊢
    simp only [hc, he, hs', if_true, List.length_cons] at h ⊢
    rw [ih (by omega)]
  | case4 whole c hc he s cs hs ih =>
    rw [List.cons_append, List.cons_append, numberLength.eq_def] at h ⊢
    simp only [hc, he, if_true] at h ⊢
    by_cases hs' : ((s == '+' || s == '-') && digitNext (cs ++ more)) = true
    · -- the digit after the sign would be part of the number
      obtain ⟨hsign, hdigit⟩ := Bool.and_eq_true_iff.1 hs'
      rcases digitNext_of_append hdigit with hdigit | ⟨rfl, hpos⟩
      · exact absurd (Bool.and_eq_true_iff.2 ⟨hsign, hdigit⟩) hs
      · have hmore := hpos plain false
        rw [if_pos hs'] at h
        simp only [List.nil_append, List.length_cons, List.length_nil] at h
        omega
    · rw [if_neg hs'] at h ⊢
      simp only [List.length_cons] at h ih
      rw [← List.cons_append, ih (by rw [List.cons_append]; omega)]
  | case5 whole c cs hc he ih =>
    rw [List.cons_append, numberLength.eq_def] at h ⊢
    simp only [hc, he, if_true, List.length_cons] at h ⊢
    simp only [Bool.false_eq_true, if_false] at h ⊢
    rw [ih (by omega)]
  | case6 whole c cs hc hd ih =>
    have hdigit := digitNext_append_of (Bool.and_eq_true_iff.1 hd).2 more
    have hd' : (c == '.' && whole && digitNext (cs ++ more)) = true := by simp_all
    rw [List.cons_append, numberLength.eq_def] at h ⊢
    simp only [hc, hd', Bool.false_eq_true, if_true, if_false, List.length_cons] at h ⊢
    rw [ih (by omega)]
  | case7 whole c cs hc hd =>
    rw [List.cons_append, numberLength.eq_def] at h ⊢
    simp only [hc, Bool.false_eq_true, if_false] at h ⊢
    by_cases hd' : (c == '.' && whole && digitNext (cs ++ more)) = true
    · -- the digit after the point would be part of the number
      obtain ⟨hpoint, hdigit⟩ := Bool.and_eq_true_iff.1 hd'
      rcases digitNext_of_append hdigit with hdigit | ⟨rfl, hpos⟩
      · exact absurd (Bool.and_eq_true_iff.2 ⟨hpoint, hdigit⟩) hd
      · have hmore := hpos plain false
        rw [if_pos hd'] at h
        simp only [List.nil_append, List.length_singleton] at h
        omega
    · rw [if_neg hd']

/-- A number that ends inside a piece has the radix that it has there. -/
theorem hasRadix_of_append {c : Char} {plain whole : Bool}
    (h : numberLength plain whole (cs ++ more) ≤ cs.length) :
    hasRadix (c :: (cs ++ more)) = hasRadix (c :: cs) := by
  cases cs with
  | cons d cs => by_cases hc : c = '0' <;> simp [hasRadix, hc]
  | nil =>
    cases more with
    | nil => rfl
    | cons m more =>
      have hm : inWord m = false := by
        by_contra hm
        have hpos := numberLength_pos plain whole (by simpa using hm) more
        rw [List.nil_append, List.length_nil] at h
        omega
      by_cases hc : c = '0'
      · have hmark : "xXoObB".toList.all inWord = true := by decide
        have hnot : m ∉ "xXoObB".toList := fun hmem => by
          simp [List.all_eq_true.1 hmark m hmem] at hm
        simpa [hasRadix, hc] using hnot
      · simp [hasRadix, hc]

/-- A string that is closed after a character is closed after the rest. -/
theorem Body.exists_of_push {body : Body} {c : Char} {k n : Nat} {value : List Char}
    (h : body.push c k = .closed value n) :
    ∃ value' m, body = .closed value' m ∧ value = c :: value' ∧ n = k + m := by
  cases body with
  | broken => cases h
  | closed value' m =>
    obtain ⟨rfl, rfl⟩ := Body.closed.inj h
    exact ⟨value', m, rfl, rfl, rfl⟩

theorem pos_of_stringBody {value : List Char} {n : Nat} (h : stringBody cs = .closed value n) :
    0 < n := by
  fun_induction stringBody cs generalizing value n with
  | case2 =>
    obtain ⟨-, rfl⟩ := Body.closed.inj h
    exact Nat.one_pos
  | case4 e cs c _ ih | case6 c cs _ _ _ ih =>
    obtain ⟨value', m, -, -, rfl⟩ := Body.exists_of_push h
    omega
  | _ => cases h

/-- A string literal that is closed in a text is the same without what comes after the text. -/
theorem stringBody_of_append {value : List Char} {n : Nat}
    (h : stringBody (cs ++ more) = .closed value n) (hn : n ≤ cs.length) :
    stringBody cs = .closed value n := by
  fun_induction stringBody cs generalizing value n with
  | case1 => exact absurd (pos_of_stringBody h) (by simpa using hn)
  | case2 cs => simpa [stringBody] using h
  | case3 =>
    cases more with
    | nil => cases h
    | cons e more =>
      rw [List.singleton_append, stringBody] at h
      split at h
      · obtain ⟨value', m, -, -, rfl⟩ := Body.exists_of_push h
        rw [List.length_singleton] at hn
        omega
      · cases h
  | case4 e cs c he ih =>
    rw [List.cons_append, List.cons_append, stringBody, he] at h
    obtain ⟨value', m, hbody, rfl, rfl⟩ := Body.exists_of_push h
    simp only [List.length_cons] at hn
    rw [ih hbody (by omega)]
    rfl
  | case5 e cs he =>
    rw [List.cons_append, List.cons_append, stringBody, he] at h
    cases h
  | case6 c cs hquote hlast hslash ih =>
    have hc := ne_backslash hlast hslash
    rw [List.cons_append, stringBody_cons hquote hc] at h
    obtain ⟨value', m, hbody, rfl, rfl⟩ := Body.exists_of_push h
    simp only [List.length_cons] at hn
    rw [ih hbody (by omega)]
    rfl

/-- A character literal is closed right after its character, which may be escaped. -/
theorem exists_of_scanChar {l : Lexeme} {n : Nat} (h : scanChar cs = .lexeme l n) :
    (∃ e tail, cs = '\\' :: e :: '\'' :: tail ∧ n = 4) ∨ ∃ c tail, cs = c :: '\'' :: tail ∧
    n = 3 := by
  unfold scanChar at h
  split at h
  · cases h
  · cases h
  · cases h
  · split at h
    · obtain ⟨-, rfl, hhead⟩ := closeChar_eq_lexeme h
      obtain ⟨tail, rfl⟩ := List.head?_eq_some_iff.1 hhead
      exact .inl ⟨_, tail, rfl, rfl⟩
    · cases h
  · split at h
    · cases h
    · obtain ⟨-, rfl, hhead⟩ := closeChar_eq_lexeme h
      obtain ⟨tail, rfl⟩ := List.head?_eq_some_iff.1 hhead
      exact .inr ⟨_, tail, rfl, rfl⟩

/-- A character literal that ends inside a piece is found in the piece. -/
theorem scanChar_of_append {l : Lexeme} {n : Nat} (h : scanChar (cs ++ more) = .lexeme l n)
    (hn : n ≤ 1 + cs.length) : scanChar cs = .lexeme l n := by
  have hclose : ∀ {value : Char} {m : Nat} {cs : List Char}, closeChar value m (cs ++ more) =
      .lexeme l n →
      n ≤ m + cs.length → closeChar value m cs = .lexeme l n := by
    intro value m cs hc hn
    obtain ⟨rfl, rfl, hhead⟩ := closeChar_eq_lexeme hc
    cases cs with
    | nil => exact absurd hn (by simp)
    | cons d cs =>
      obtain rfl : d = '\'' := by simpa using hhead
      rfl
  have hthree : 3 ≤ n := by
    obtain ⟨_, _, -, rfl⟩ | ⟨_, _, -, rfl⟩ := exists_of_scanChar h <;> decide
  cases cs with
  | nil =>
    rw [List.length_nil] at hn
    omega
  | cons c cs =>
    by_cases hquote : c = '\''
    · subst hquote
      cases h
    by_cases hslash : c = '\\'
    · subst hslash
      cases cs with
      | nil =>
        rw [List.length_singleton] at hn
        omega
      | cons e cs =>
        rw [List.cons_append, List.cons_append, scanChar] at h
        rw [scanChar]
        simp only [List.length_cons] at hn
        cases he : unescape? e with
        | none => simp [he] at h
        | some c =>
          rw [he] at h
          exact hclose h (by omega)
    · have hcons : ∀ cs, scanChar (c :: cs) =
          if isLineEnd c then .fault .newlineInChar 1 else closeChar c 2 cs := by
        intro cs
        simp [scanChar, hslash]
      rw [List.cons_append, hcons] at h
      rw [hcons]
      rw [List.length_cons] at hn
      split at h
      · cases h
      next hline =>
        rw [if_neg hline]
        exact hclose h (by omega)

theorem pos_of_blockLength? {n : Nat} (h : blockLength? cs = some n) : 0 < n := by
  fun_induction blockLength? cs with
  | case1 => cases h
  | case2 => exact Option.some.inj h ▸ by decide
  | case3 c cs =>
    obtain ⟨m, -, rfl⟩ := Option.map_eq_some_iff.1 h
    omega

/-- A block comment that ends inside a piece is found in the piece. -/
theorem blockLength?_of_append {n : Nat} (h : blockLength? (cs ++ more) = some n)
    (hn : n ≤ cs.length) :
    blockLength? cs = some n := by
  fun_induction blockLength? cs generalizing n with
  | case1 => exact absurd (pos_of_blockLength? h) (by simpa using hn)
  | case2 cs => exact h
  | case3 c cs hopen ih =>
    by_cases hmark : ∃ rest, c = '*' ∧ cs ++ more = '/' :: rest
    · -- the mark that closes the comment is not complete in the text
      obtain ⟨rest, rfl, hrest⟩ := hmark
      cases cs with
      | cons d cs => exact (hopen cs rfl (congrArg (· :: cs) (List.cons.inj hrest).1)).elim
      | nil =>
        rw [List.cons_append, hrest] at h
        obtain rfl : 2 = n := Option.some.inj h
        exact absurd hn (by decide)
    · have hcons : blockLength? (c :: (cs ++ more)) = (blockLength? (cs ++ more)).map (1 + ·) :=
        blockLength?.eq_3 c (cs ++ more) fun rest hc hrest => hmark ⟨rest, hc, hrest⟩
      rw [List.cons_append, hcons] at h
      obtain ⟨m, hm, rfl⟩ := Option.map_eq_some_iff.1 h
      simp only [List.length_cons] at hn
      rw [ih hm (by omega)]
      rfl

/-- An operator that ends inside a piece is found in the piece. -/
theorem operator?_of_append {op : String} (h : operator? (cs ++ more) = some op)
    (hn : op.length ≤ cs.length) :
    operator? cs = some op := by
  obtain ⟨hop, l₁, l₂, heq, hfirst⟩ := List.find?_eq_some_iff_append.1 h
  refine List.find?_eq_some_iff_append.2 ⟨?_, l₁, l₂, heq, fun op' hop' => ?_⟩
  · have hstart := List.isPrefixOf_iff_prefix.1 hop
    have hlength : op.toList.length ≤ cs.length := by rwa [String.length_toList]
    exact List.isPrefixOf_iff_prefix.2
      (List.prefix_of_prefix_length_le hstart (List.prefix_append cs more) hlength)
  · have hnone := hfirst op' hop'
    rw [Bool.not_eq_true', Bool.eq_false_iff] at hnone ⊢
    intro hshort
    refine hnone (List.isPrefixOf_iff_prefix.2 ?_)
    exact (List.isPrefixOf_iff_prefix.1 hshort).trans (List.prefix_append cs more)

end Scan

open Scan in
/-- A lexeme is the same without what comes after a text that holds it. -/
theorem scan_of_append {cs more : List Char} {l : Lexeme} {n : Nat}
    (h : scan (cs ++ more) = some (.lexeme l n)) (hn : n ≤ cs.length) :
    scan cs = some (.lexeme l n) := by
  cases cs with
  | nil => exact absurd (extent_of_scan h).1 (by simpa [extent] using hn)
  | cons c cs =>
    have htake := fun make => taken_append make hn more
    rw [List.cons_append] at h
    rw [List.length_cons] at hn
    have hcase := scan_cons_iff.1 h
    rw [scan_cons_iff]
    generalize hr : Scan.lexeme l n = r at hcase
    cases hcase with
    | word hw =>
      have hl := (Scan.lexeme.inj hr).2
      have hlength : ((cs ++ more).takeWhile inWord).length ≤ cs.length := by omega
      have hshort := @ScanCase.word c cs hw
      rwa [← takeWhile_of_append hlength, ← hl, ← htake, hl] at hshort
    | number hw hd =>
      have hl := (Scan.lexeme.inj hr).2
      have hlength : numberLength (!hasRadix (c :: (cs ++ more))) (!hasRadix (c :: (cs ++ more)))
          (cs ++ more) ≤
          cs.length := by omega
      have hshort := @ScanCase.number c cs hw hd
      rwa [← hasRadix_of_append hlength, ← numberLength_of_append _ _ hlength, ← hl, ← htake,
        hl] at hshort
    | string hs =>
      have hshort := @ScanCase.string c cs hs
      have heq : scanString cs = scanString (cs ++ more) := by
        unfold scanString at hr ⊢
        split at hr
        next value m hbody =>
          have hm := (Scan.lexeme.inj hr).2
          rw [stringBody_of_append hbody (by omega)]
        next => cases hr
      rwa [heq] at hshort
    | char hc =>
      have hshort := @ScanCase.char c cs hc
      rwa [scanChar_of_append hr.symm (by omega), hr] at hshort
    | lineFeed hc =>
      have hl := (Scan.lexeme.inj hr).2
      have hshort := @ScanCase.lineFeed c cs hc
      rwa [← hl, ← htake, hl] at hshort
    | carriageReturn hc =>
      have hl := (Scan.lexeme.inj hr).2
      have hshort := @ScanCase.carriageReturn c cs hc
      have hhead : (cs ++ more).head? = some '\n' ↔ cs.head? = some '\n' := by
        cases cs with
        | cons d cs => rfl
        | nil =>
          refine ⟨fun hmore => ?_, fun hnone => by cases hnone⟩
          rw [if_pos hmore] at hl
          exact absurd hn (by rw [hl]; decide)
      rwa [← if_congr hhead rfl rfl, ← hl, ← htake, hl] at hshort
    | blank hw hd hb he =>
      have hl := (Scan.lexeme.inj hr).2
      have hlength : ((cs ++ more).takeWhile isInlineBlank).length ≤ cs.length := by omega
      have hshort := @ScanCase.blank c cs hw hd hb he
      rwa [← takeWhile_of_append hlength, ← hl, ← htake, hl] at hshort
    | lineComment hc hhead =>
      have hl := (Scan.lexeme.inj hr).2
      have hlength : ((cs ++ more).takeWhile fun d => !isLineEnd d).length ≤ cs.length := by omega
      have hmark : cs.head? = some '/' := by
        cases cs with
        | cons d cs => exact hhead
        | nil =>
          obtain ⟨rest, hrest⟩ := List.head?_eq_some_iff.1 hhead
          rw [hrest] at hlength
          exact absurd hlength (by simp [isLineEnd])
      have hshort := @ScanCase.lineComment c cs hc hmark
      rwa [← takeWhile_of_append hlength, ← hl, ← htake, hl] at hshort
    | blockComment hc hhead hblock =>
      have hl := (Scan.lexeme.inj hr).2
      cases cs with
      | nil =>
        rw [List.length_nil] at hn
        omega
      | cons d cs =>
        have hshort := @ScanCase.blockComment c (d :: cs) _ hc hhead
          (blockLength?_of_append hblock (by
            rw [List.length_cons] at hn
            rw [List.drop_one, List.tail_cons]
            omega))
        rwa [← hl, ← htake, hl] at hshort
    | openComment _ _ _ => cases hr
    | operator hmark hslash hop =>
      have hl := (Scan.lexeme.inj hr).2
      refine .operator hmark (fun heq => ?_)
        (operator?_of_append hop (by rw [List.length_cons]; omega))
      cases cs with
      | nil => exact ⟨by simp, by simp⟩
      | cons d cs => exact hslash heq
    | unrecognized _ _ => cases hr

/-! ## The last character of a lexeme -/

namespace Scan

/-- A number has no carriage return in it. -/
theorem ne_return_of_mem_number {plain whole : Bool} {cs : List Char} {x : Char}
    (h : x ∈ cs.take (numberLength plain whole cs)) : x ≠ '\r' := by
  have hword : ∀ {c : Char}, inWord c = true → c ≠ '\r' := by
    rintro _ hc rfl
    exact absurd hc (by decide)
  fun_induction numberLength plain whole cs with
  | case1 whole => simp at h
  | case2 whole c hc he =>
    obtain rfl : x = c := by simpa using h
    exact hword hc
  | case3 whole c hc he s cs hs ih =>
    have hsign : s ≠ '\r' := by
      rintro rfl
      simp at hs
    rw [Nat.add_comm, List.take_succ_cons, List.take_succ_cons] at h
    rcases List.mem_cons.1 h with rfl | h
    · exact hword hc
    rcases List.mem_cons.1 h with rfl | h
    · exact hsign
    · exact ih h
  | case4 whole c hc he s cs hs ih | case5 whole c cs hc he ih =>
    rw [Nat.add_comm, List.take_succ_cons] at h
    rcases List.mem_cons.1 h with rfl | h
    · exact hword hc
    · exact ih h
  | case6 whole c cs hc hd ih =>
    rw [Nat.add_comm, List.take_succ_cons] at h
    rcases List.mem_cons.1 h with rfl | h
    · rintro rfl
      simp at hd
    · exact ih h
  | case7 whole c cs hc hd => simp at h

/-- A string ends with its closing mark. -/
theorem getLast?_stringBody {cs value : List Char} {n : Nat} (h : stringBody cs = .closed value n) :
    (cs.take n).getLast? = some '"' := by
  fun_induction stringBody cs generalizing value n with
  | case2 cs =>
    obtain ⟨-, rfl⟩ := Body.closed.inj h
    rfl
  | case4 e cs c _ ih =>
    obtain ⟨value', m, hbody, -, rfl⟩ := Body.exists_of_push h
    rw [Nat.add_comm, List.take_succ_cons, List.take_succ_cons, List.getLast?_cons,
      List.getLast?_cons, ih hbody]
    rfl
  | case6 c cs _ _ _ ih =>
    obtain ⟨value', m, hbody, -, rfl⟩ := Body.exists_of_push h
    rw [Nat.add_comm, List.take_succ_cons, List.getLast?_cons, ih hbody]
    rfl
  | _ => cases h

/-- A character literal ends with its closing mark. -/
theorem getLast?_scanChar (c : Char) {cs : List Char} {l : Lexeme} {n : Nat}
    (h : scanChar cs = .lexeme l n) :
    ((c :: cs).take n).getLast? = some '\'' := by
  obtain ⟨e, tail, rfl, rfl⟩ | ⟨d, tail, rfl, rfl⟩ := exists_of_scanChar h <;> rfl

end Scan

open Scan in
/-- A lexeme that carries meaning does not end in a carriage return. -/
theorem getLast?_ne_return {cs : List Char} {l : Lexeme} {n : Nat}
    (h : scan cs = some (.lexeme l n)) (hl : l.kind.isTrivia = false) :
    (cs.take n).getLast? ≠ some '\r' := by
  have hmem : (∀ x ∈ cs.take n, x ≠ '\r') → (cs.take n).getLast? ≠ some '\r' := fun hall hlast =>
    hall _ (List.mem_of_getLast? hlast) rfl
  cases cs with
  | nil => simp [scan] at h
  | cons c cs =>
    have hcase := scan_cons_iff.1 h
    generalize hr : Scan.lexeme l n = r at hcase
    cases hcase with
    | word hw =>
      obtain ⟨-, rfl⟩ := Scan.lexeme.inj hr
      refine hmem fun x hx => ?_
      rw [Nat.add_comm, List.take_succ_cons,
        ← List.prefix_iff_eq_take.1 (List.takeWhile_prefix inWord)] at hx
      rintro rfl
      rcases List.mem_cons.1 hx with rfl | hx
      · exact absurd hw (by decide)
      · exact absurd (List.all_eq_true.1 (List.all_takeWhile) _ hx) (by decide)
    | number hw hd =>
      obtain ⟨-, rfl⟩ := Scan.lexeme.inj hr
      refine hmem fun x hx => ?_
      rw [Nat.add_comm, List.take_succ_cons] at hx
      rcases List.mem_cons.1 hx with rfl | hx
      · rintro rfl
        exact absurd hd (by decide)
      · exact ne_return_of_mem_number hx
    | string hs =>
      unfold scanString at hr
      split at hr
      next value m hbody =>
        obtain ⟨-, rfl⟩ := Scan.lexeme.inj hr
        rw [Nat.add_comm, List.take_succ_cons, List.getLast?_cons, getLast?_stringBody hbody]
        simp
      next => cases hr
    | char hc =>
      rw [getLast?_scanChar c hr.symm]
      decide
    | operator hmark hslash hop =>
      obtain ⟨-, rfl⟩ := Scan.lexeme.inj hr
      obtain ⟨hop, hstart⟩ := operator?_eq_some hop
      refine hmem fun x hx => ?_
      rw [← String.length_toList, ← List.prefix_iff_eq_take.1 hstart] at hx
      have hnone : ∀ op ∈ operators, '\r' ∉ op.toList := by decide
      rintro rfl
      exact hnone _ hop hx
    | lineFeed _ | carriageReturn _ | blank _ _ _ _ | lineComment _ _ | blockComment _ _ _ =>
      obtain ⟨rfl, -⟩ := Scan.lexeme.inj hr
      cases hl
    | openComment _ _ _ => cases hr
    | unrecognized _ _ => cases hr

/-! ## Locations counted from elsewhere -/

namespace Location

/-- The location in a text of a place that has the location `l` in a piece of it, if the piece
starts at `base`. Only the first line of the piece goes on with the columns of `base`. -/
def onto (base l : Location) : Location :=
  if l.line = 1 then ⟨base.line, base.column + (l.column - 1)⟩
  else ⟨base.line + (l.line - 1), l.column⟩

variable {l : Location}

/-- Lines and columns are counted from one. -/
structure Counted (l : Location) : Prop where
  line : 1 ≤ l.line
  column : 1 ≤ l.column

theorem counted_origin : origin.Counted := ⟨Nat.le_refl 1, Nat.le_refl 1⟩

theorem Counted.after (h : l.Counted) (c : Char) (rest : List Char) : (l.after c rest).Counted := by
  rw [after_eq]
  split
  · exact ⟨Nat.le_add_left 1 _, Nat.le_refl 1⟩
  · exact ⟨h.line, Nat.le_add_left 1 _⟩

/-- Locations that are counted from one stay so past further characters. -/
theorem Counted.past (h : l.Counted) (cs rest : List Char) : (l.past cs rest).Counted := by
  induction cs generalizing l with
  | nil => exact h
  | cons c cs ih => exact ih (h.after c _)

/-- To go past a character of a piece is to go past it in the text. -/
theorem onto_after (base : Location) (h : l.Counted) (c : Char) (rest : List Char) :
    (base.onto l).after c rest = base.onto (l.after c rest) := by
  obtain ⟨hline, hcolumn⟩ := h
  rw [after_eq, after_eq]
  by_cases hends : EndsLine c rest
  · have hlater : l.line + 1 ≠ 1 := by omega
    rw [if_pos hends, if_pos hends, onto, onto, if_neg hlater]
    split <;> simp only [Location.mk.injEq, and_true] <;> omega
  · rw [if_neg hends, if_neg hends, onto, onto]
    split
    · simp only [Location.mk.injEq, true_and]
      omega
    · rfl

/-- A piece of text moves a location alike, wherever it is counted from. -/
theorem onto_past (base : Location) (h : l.Counted) (cs rest : List Char) :
    (base.onto l).past cs rest = base.onto (l.past cs rest) := by
  induction cs generalizing l with
  | nil => rfl
  | cons c cs ih => rw [past, past, onto_after base h, ih (h.after c _)]

/-- What comes next matters for a location only after a carriage return. -/
theorem after_of_append (l : Location) {c : Char} {rest : List Char} (more : List Char)
    (h : rest ≠ [] ∨ c ≠ '\r') : l.after c (rest ++ more) = l.after c rest := by
  have hiff : EndsLine c (rest ++ more) ↔ EndsLine c rest := by
    cases rest with
    | nil =>
      have hreturn : c ≠ '\r' := h.resolve_left fun hne => hne rfl
      simp [EndsLine, hreturn]
    | cons d rest => rfl
  simp only [after_eq, hiff]

/-- What comes after a piece does not change where it ends, unless a carriage return at its end is
followed by a line feed. -/
theorem past_of_append (l : Location) {cs rest : List Char} (more : List Char)
    (h : rest ≠ [] ∨ cs.getLast? ≠ some '\r') : l.past cs (rest ++ more) = l.past cs rest := by
  induction cs generalizing l with
  | nil => rfl
  | cons c cs ih =>
    have hfirst : cs ++ rest ≠ [] ∨ c ≠ '\r' := by
      cases cs with
      | nil => simpa using h
      | cons d cs => exact .inl (List.cons_ne_nil _ _)
    have hrest : rest ≠ [] ∨ cs.getLast? ≠ some '\r' := by
      cases cs with
      | nil => exact .inr (by decide)
      | cons d cs => rwa [List.getLast?_cons_cons] at h
    rw [past, past, ← List.append_assoc, after_of_append l more hfirst, ih _ hrest]

end Location

/-- The range in a text of a range in a piece of it that starts at `base`. -/
def Range.onto (base : Location) (r : Range) : Range := ⟨base.onto r.start, base.onto r.stop⟩

/-- The token in a text of a token in a piece of it that starts at `base`. -/
def Token.onto (base : Location) (t : Token) : Token := ⟨t.lexeme, t.range.onto base⟩

/-! ## A piece of a walk -/

namespace Cursor

theorem location_advance (n : Nat) (c : Cursor) :
    (c.advance n).location = c.location.past (c.rest.take n) (c.rest.drop n) := by
  induction n generalizing c with
  | zero => rfl
  | succ n ih =>
    obtain ⟨rest, offset, location⟩ := c
    cases rest with
    | nil => rfl
    | cons ch rest => simp [advance, next?, ih, Location.past]

end Cursor

namespace Walk

variable {c c' c'' : Cursor} {ts us : List Token}

/-- A walk leaves the end of the text. -/
theorem isSuffix_rest (h : Walk c ts c') : c'.rest <:+ c.rest := by
  induction h with
  | done => exact List.suffix_rfl
  | @step c c' l n ts hscan more ih =>
    rw [Cursor.rest_advance] at ih
    exact ih.trans (List.drop_suffix n c.rest)

/-- A walk that takes no characters finds no tokens. -/
theorem eq_nil_of_length_le (h : Walk c ts c') (hlen : c.rest.length ≤ c'.rest.length) :
    ts = [] := by
  cases h with
  | done => rfl
  | @step _ _ l n ts hscan more =>
    have hpos := extent_of_scan hscan
    simp only [Scan.extent] at hpos
    have hle := more.isSuffix_rest.length_le
    rw [Cursor.rest_advance, List.length_drop] at hle
    omega

/-- A walk over tokens in sequence is two walks. -/
theorem split (h : Walk c (ts ++ us) c'') : ∃ c', Walk c ts c' ∧ Walk c' us c'' := by
  induction ts generalizing c with
  | nil => exact ⟨c, .done c, h⟩
  | cons t ts ih =>
    cases h with
    | step hscan more =>
      obtain ⟨c', hleft, hright⟩ := ih more
      exact ⟨c', .step hscan hleft, hright⟩

/-- The first token of a walk starts where the walk does. -/
theorem start_of_head? (h : Walk c ts c') : ∀ t ∈ ts.head?, t.range.start = c.location := by
  cases h with
  | done => simp
  | step => simp

/-- The last token of a walk stops where the walk does. -/
theorem stop_of_getLast? (h : Walk c ts c') : ∀ t ∈ ts.getLast?, t.range.stop = c'.location := by
  induction h with
  | done => simp
  | @step c c' l n ts hscan more ih =>
    cases more with
    | done => simp
    | step => rwa [List.getLast?_cons_cons]

/-- A walk stays what it is, up to where locations are counted from, when the text is cut where the
walk ends, right after a token that carries meaning. -/
theorem cut (base : Location) (h : Walk c ts c') (hlast : ∀ t ∈ ts.getLast?, t.isTrivia = false)
    {d : Cursor} (hrest : c.rest = d.rest ++ c'.rest) (hcounted : d.location.Counted)
    (hlocation : c.location = base.onto d.location) :
    ∃ us d', Walk d us d' ∧ d'.rest = [] ∧ ts = us.map (Token.onto base) := by
  induction h generalizing d with
  | done c => exact ⟨[], d, .done d, by simpa using hrest, rfl⟩
  | @step c c' l n ts hscan more ih =>
    have hn : n ≤ d.rest.length := by
      have hpos := extent_of_scan hscan
      simp only [Scan.extent] at hpos
      have hle := more.isSuffix_rest.length_le
      rw [Cursor.rest_advance, List.length_drop] at hle
      have hlength := congrArg List.length hrest
      rw [List.length_append] at hlength
      omega
    have htake : c.rest.take n = d.rest.take n := by rw [hrest, List.take_append_of_le_length hn]
    have hdrop : c.rest.drop n = d.rest.drop n ++ c'.rest := by
      rw [hrest, List.drop_append_of_le_length hn]
    -- either characters of the piece follow, or this is its last token
    have hnext : d.rest.drop n ≠ [] ∨ (d.rest.take n).getLast? ≠ some '\r' := by
      by_cases hend : d.rest.drop n = []
      · right
        obtain rfl : ts = [] := more.eq_nil_of_length_le (by
          rw [Cursor.rest_advance, hdrop, hend]
          exact Nat.le_refl _)
        rw [← htake]
        exact getLast?_ne_return hscan (hlast _ rfl)
      · exact .inl hend
    have hscan' : scan d.rest = some (.lexeme l n) := scan_of_append (hrest ▸ hscan) hn
    have hadvance : (c.advance n).location = base.onto (d.advance n).location := by
      rw [Cursor.location_advance, Cursor.location_advance, htake, hdrop,
        Location.past_of_append _ _ hnext, hlocation, Location.onto_past base hcounted]
    have hlast' : ∀ t ∈ ts.getLast?, t.isTrivia = false := by
      cases ts with
      | nil => simp
      | cons t ts => rwa [List.getLast?_cons_cons] at hlast
    obtain ⟨us, d', hwalk, hend, hus⟩ := ih hlast' (d := d.advance n)
      (by rw [Cursor.rest_advance, Cursor.rest_advance, hdrop])
      (by rw [Cursor.location_advance]; exact hcounted.past _ _) hadvance
    refine ⟨_, d', .step hscan' hwalk, hend, ?_⟩
    rw [List.map_cons, ← hus, hlocation, hadvance]
    rfl

end Walk

/-! ## Pieces between tokens -/

/-- Up to its last kept member, a list keeps all its kept members. -/
theorem exists_of_filter_getLast? {α : Type} {keep : α → Bool} {all : List α}
    (h : all.filter keep ≠ []) :
    ∃ piece trail, all = piece ++ trail ∧ piece.filter keep = all.filter keep ∧
      piece.getLast? = (all.filter keep).getLast? := by
  induction all using List.reverseRec with
  | nil => exact absurd rfl h
  | append_singleton all a ih =>
    by_cases ha : keep a
    · exact ⟨all ++ [a], [], by simp, rfl, by simp [ha]⟩
    · have hsame : (all ++ [a]).filter keep = all.filter keep := by simp [ha]
      rw [hsame] at h ⊢
      obtain ⟨piece, trail, rfl, hpiece, hlast⟩ := ih h
      exact ⟨piece, trail ++ [a], by simp, hpiece, hlast⟩

/-- Neighbours among the kept members of a list are the kept members of a piece of it that starts
with the first of them and ends with the last. -/
theorem exists_of_isInfix_filter {α : Type} {keep : α → Bool} {all us : List α} (hus : us ≠ [])
    (h : us <:+: all.filter keep) : ∃ before piece after, all = before ++ (piece ++ after) ∧
      piece.filter keep = us ∧ piece.head? = us.head? ∧ piece.getLast? = us.getLast? := by
  obtain ⟨front, back, h⟩ := h
  rw [List.append_assoc] at h
  obtain ⟨as, bs, rfl, -, hbs⟩ := List.filter_eq_append_iff.1 h.symm
  obtain ⟨cs, ds, rfl, hcs, -⟩ := List.filter_eq_append_iff.1 hbs
  -- cut off what stands before the first member that is kept, then what stands after the last
  obtain ⟨u, rest, rfl⟩ := List.exists_cons_of_ne_nil hus
  obtain ⟨lead, cs, rfl, -, hu, hrest⟩ := List.filter_eq_cons_iff.1 hcs
  have hkept : (u :: cs).filter keep = u :: rest := by rw [List.filter_cons_of_pos hu, hrest]
  obtain ⟨piece, trail, hsplit, hpiece, hlast⟩ := exists_of_filter_getLast? (hkept ▸ hus)
  rw [hkept] at hpiece hlast
  refine ⟨as ++ lead, piece, trail ++ ds, ?_, hpiece, ?_, hlast⟩
  · rw [← List.append_assoc piece, ← hsplit, List.append_assoc, List.append_assoc]
  · cases piece with
    | nil => cases hpiece
    | cons v piece => rw [List.head?_cons, List.head?_cons, (List.cons.inj hsplit).1]

namespace Buffer

variable {b : Buffer} {ts us : List Token}

/-- The tokens of a text are those of the walk over it, as far as they carry meaning. -/
theorem exists_walk_of_tokens (h : b.tokens = .ok ts) :
    ∃ all c', Walk (Cursor.start b) all c' ∧ c'.rest = [] ∧
    all.filter (fun t => !t.isTrivia) = ts := by
  obtain ⟨all, hall, hts⟩ := allTokens_of_tokens h
  obtain ⟨us, c', error, hwalk, hends, hitems⟩ := b.exists_walk_items
  rw [allTokens, hitems, Item.collect_walkItems] at hall
  cases hends with
  | text hrest =>
    obtain rfl : us = all := Except.ok.inj hall
    exact ⟨us, c', hwalk, hrest, hts.symm⟩
  | fault => cases hall

/-- The tokens of a text are those of a walk to its end that are no trivia. -/
theorem tokens_of_walk {c' : Cursor} (h : Walk (Cursor.start b) ts c') (hend : c'.rest = []) :
    b.tokens = .ok (ts.filter fun t => !t.isTrivia) := by
  have hitems : b.items = walkItems ts none :=
    Tokenizer.items_of_walk h (.text hend) rfl rfl (Nat.le_refl b.chars.length)
  rw [tokens_eq_map, allTokens, hitems, Item.collect_walkItems]
  rfl

/-- The text of the range across tokens that follow each other has these tokens, counted
from where it starts. -/
theorem exists_piece (h : b.tokens = .ok ts) (hpiece : us <:+: ts) (hus : us ≠ []) : ∃ text us',
    b.slice? (Range.across us) = some text ∧ (∀ name, tokens ⟨name, text⟩ = .ok us') ∧
      us = us'.map (Token.onto (Range.across us).start) := by
  obtain ⟨all, c', hwalk, hend, rfl⟩ := exists_walk_of_tokens h
  obtain ⟨before, piece, after, rfl, rfl, hhead, hlast⟩ := exists_of_isInfix_filter hus hpiece
  obtain ⟨c₁, hbefore, hwalk⟩ := hwalk.split
  obtain ⟨c₂, hwalk, -⟩ := hwalk.split
  -- the characters that the walk over the piece takes
  obtain ⟨-, _, -, hstart⟩ := (Cursor.at_start b).walk hbefore
  obtain ⟨-, pieces, -, hstop⟩ := hstart.walk hwalk
  generalize pieces.flatMap String.toList = mid at hstop
  generalize [] ++ _ = start at hstart hstop
  have hrest : c₁.rest = mid ++ c₂.rest := by
    have hchars := hstart.chars.symm.trans hstop.chars
    rwa [List.append_assoc, List.append_cancel_left_eq] at hchars
  have hacross : Range.across (piece.filter fun t => !t.isTrivia) = ⟨c₁.location, c₂.location⟩ := by
    rw [Range.across_eq hus,
      hwalk.start_of_head? _ (by rw [hhead]; exact List.head?_eq_some_head hus),
      hwalk.stop_of_getLast? _ (by rw [hlast]; exact List.getLast?_eq_some_getLast hus)]
  have hmeaning : ∀ t ∈ piece.getLast?, t.isTrivia = false := by
    intro t ht
    rw [hlast] at ht
    simpa using (List.mem_filter.1 (List.mem_of_getLast? ht)).2
  -- a walk over them in a text of their own
  obtain ⟨us', d', hown, hend', hpiece'⟩ :=
    hwalk.cut (d := ⟨mid, 0, .origin⟩) c₁.location hmeaning hrest
      Location.counted_origin rfl
  have hslice : b.slice? ⟨c₁.location, c₂.location⟩ = some (String.ofList mid) := by
    rw [hstart.location, hstop.location, hrest]
    exact slice?_past (by rw [hstart.chars, hrest])
  refine ⟨String.ofList mid, us'.filter fun t => !t.isTrivia, by rw [hacross, hslice],
    fun name => ?_, ?_⟩
  · have hwhole : Walk (Cursor.start ⟨name, String.ofList mid⟩) us' d' := by
      rwa [Cursor.start, Buffer.chars, String.toList_ofList]
    exact tokens_of_walk hwhole hend'
  · rw [hacross, hpiece', List.filter_map]
    rfl

end Buffer

end Rill
