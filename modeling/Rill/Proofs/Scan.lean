import Rill.Token.Scan

/-!
# What one lexeme takes

`ScanCase` lists what `scan` may find at the start of a text, by its first character
(`scan_cons_iff`). A lexeme takes at least one character and no more than there are, and a lexeme
other than a string or character literal says what it was read from (`scan_lexeme_taken`). A fault
lies inside the text as well (`scan_fault_le`).

A word that is a lexeme of its own stays one before a separator, whatever comes after that
(`scan_append_separator`).
-/

namespace Rill

namespace Scan

/-- A character that starts none of the lexemes that are told by their first character alone. -/
structure StartsMark (c : Char) : Prop where
  word : startsWord c = false
  digit : Text.isDigit c = false
  string : c ≠ '"'
  char : c ≠ '\''
  lineFeed : c ≠ '\n'
  carriageReturn : c ≠ '\r'
  blank : Text.isBlank c = false

end Scan

open Scan in
/-- What is found at the start of the text `c :: cs`. -/
inductive ScanCase (c : Char) (cs : List Char) : Scan → Prop
  | word : startsWord c →
      ScanCase c cs (taken wordLexeme (c :: cs) (1 + (cs.takeWhile inWord).length))
  | number : startsWord c = false → Text.isDigit c →
      ScanCase c cs (taken .number (c :: cs)
        (1 + numberLength (!hasRadix (c :: cs)) (!hasRadix (c :: cs)) cs))
  | string : c = '"' → ScanCase c cs (scanString cs)
  | char : c = '\'' → ScanCase c cs (scanChar cs)
  | lineFeed : c = '\n' → ScanCase c cs (taken .lineBreak (c :: cs) 1)
  | carriageReturn : c = '\r' →
      ScanCase c cs (taken .lineBreak (c :: cs) (if cs.head? = some '\n' then 2 else 1))
  | blank : startsWord c = false → Text.isDigit c = false → Text.isBlank c → isLineEnd c = false →
      ScanCase c cs (taken .blank (c :: cs) (1 + (cs.takeWhile isInlineBlank).length))
  | lineComment : c = '/' → cs.head? = some '/' →
      ScanCase c cs (taken .comment (c :: cs) (1 + (cs.takeWhile fun d => !isLineEnd d).length))
  | blockComment {n : Nat} : c = '/' → cs.head? = some '*' → blockLength? (cs.drop 1) = some n →
      ScanCase c cs (taken .comment (c :: cs) (2 + n))
  | openComment : c = '/' → cs.head? = some '*' → blockLength? (cs.drop 1) = none →
      ScanCase c cs (.fault .unterminatedComment (c :: cs).length)
  | operator {op : String} : StartsMark c → (c = '/' → cs.head? ≠ some '/' ∧ cs.head? ≠ some '*') →
      operator? (c :: cs) = some op → ScanCase c cs (.lexeme (.punctuation op) op.length)
  | unrecognized :
      StartsMark c → operator? (c :: cs) = none → ScanCase c cs (.fault (.unrecognized c) 1)

namespace Scan

theorem isLineEnd_iff {c : Char} : isLineEnd c ↔ c = '\n' ∨ c = '\r' := by
  simp [isLineEnd]

theorem isLineEnd_eq_false_iff {c : Char} : isLineEnd c = false ↔ c ≠ '\n' ∧ c ≠ '\r' := by
  simp [isLineEnd]

theorem startsMark_slash : StartsMark '/' :=
  ⟨rfl, rfl, by decide, by decide, by decide, by decide, rfl⟩

/-- A text that starts with a slash starts with an operator. -/
theorem operator?_slash (cs : List Char) : operator? ('/' :: cs) ≠ none := by
  intro h
  have hnone := List.find?_eq_none.1 h "/" (by decide)
  simp at hnone

end Scan

open Scan in
/-- What is found at the start of a text is told by its first characters, case by case. -/
theorem scan_cons_iff {c : Char} {cs : List Char} {r : Scan} :
    scan (c :: cs) = some r ↔ ScanCase c cs r := by
  constructor
  · intro h
    rw [scan, Option.some.injEq] at h
    subst h
    by_cases hw : startsWord c
    · rw [if_pos hw]
      exact .word hw
    rw [if_neg hw]
    simp only [Bool.not_eq_true] at hw
    by_cases hd : Text.isDigit c
    · rw [if_pos hd]
      exact .number hw hd
    rw [if_neg hd]
    simp only [Bool.not_eq_true] at hd
    simp only [beq_iff_eq, Bool.and_eq_true, decide_eq_true_eq]
    by_cases hs : c = '"'
    · rw [if_pos hs]
      exact .string hs
    rw [if_neg hs]
    by_cases hc : c = '\''
    · rw [if_pos hc]
      exact .char hc
    rw [if_neg hc]
    by_cases hn : c = '\n'
    · rw [if_pos hn]
      exact .lineFeed hn
    rw [if_neg hn]
    by_cases hr : c = '\r'
    · rw [if_pos hr]
      exact .carriageReturn hr
    rw [if_neg hr]
    by_cases hb : Text.isBlank c
    · rw [if_pos hb]
      exact .blank hw hd hb (by simp [isLineEnd, hn, hr])
    rw [if_neg hb]
    by_cases hl : c = '/' ∧ cs.head? = some '/'
    · rw [if_pos hl]
      exact .lineComment hl.1 hl.2
    rw [if_neg hl]
    by_cases hm : c = '/' ∧ cs.head? = some '*'
    · rw [if_pos hm]
      split
      · exact .blockComment hm.1 hm.2 ‹_›
      · exact .openComment hm.1 hm.2 ‹_›
    rw [if_neg hm]
    have hmark : StartsMark c := ⟨hw, hd, hs, hc, hn, hr, by simpa using hb⟩
    split
    · exact .operator hmark (fun heq => ⟨fun h => hl ⟨heq, h⟩, fun h => hm ⟨heq, h⟩⟩) ‹_›
    · exact .unrecognized hmark ‹_›
  · intro h
    rw [scan, Option.some.injEq]
    cases h with
    | word hw => simp [hw]
    | number hw hd => simp [hw, hd]
    | string hs => subst hs; rfl
    | char hc => subst hc; rfl
    | lineFeed hn => subst hn; rfl
    | carriageReturn hr => subst hr; rfl
    | blank hw hd hb he =>
      have hne : c ≠ '"' ∧ c ≠ '\'' := by
        constructor <;> rintro rfl <;> exact absurd hb (by decide)
      simp only [isLineEnd, Bool.or_eq_false_iff, beq_eq_false_iff_ne] at he
      simp [hw, hd, hb, he.1, he.2, hne.1, hne.2]
    | lineComment hc hl =>
      subst hc
      simp [startsMark_slash.word, startsMark_slash.digit, startsMark_slash.blank, hl]
    | blockComment hc hm hn =>
      subst hc
      rw [List.drop_one] at hn
      simp [startsMark_slash.word, startsMark_slash.digit, startsMark_slash.blank, hm, hn]
    | openComment hc hm hn =>
      subst hc
      rw [List.drop_one] at hn
      simp [startsMark_slash.word, startsMark_slash.digit, startsMark_slash.blank, hm, hn]
    | operator hmark hslash hop =>
      obtain ⟨hw, hd, hs, hc, hn, hr, hb⟩ := hmark
      by_cases heq : c = '/'
      · simp [hw, hd, hs, hc, hn, hr, hb, hslash heq, hop]
      · simp [hw, hd, hs, hc, hn, hr, hb, heq, hop]
    | unrecognized hmark hop =>
      obtain ⟨hw, hd, hs, hc, hn, hr, hb⟩ := hmark
      have heq : c ≠ '/' := by
        rintro rfl
        exact operator?_slash cs hop
      simp [hw, hd, hs, hc, hn, hr, hb, heq, hop]

/-! ## Extents -/

namespace Scan

theorem length_takeWhile_le (test : Char → Bool) (cs : List Char) :
    (cs.takeWhile test).length ≤ cs.length :=
  (List.takeWhile_prefix test).length_le

/-- A number takes no more characters than there are. -/
theorem numberLength_le (plain whole : Bool) (cs : List Char) :
    numberLength plain whole cs ≤ cs.length := by
  fun_induction numberLength plain whole cs <;> simp_all <;> omega

/-- How many characters the inside of a string literal takes. -/
def Body.extent : Body → Nat
  | .closed _ n => n
  | .broken _ n => n

/-- A character of a string adds to what its inside takes. -/
@[simp]
theorem Body.extent_push (c : Char) (n : Nat) (b : Body) : (b.push c n).extent = n + b.extent := by
  cases b <;> rfl

/-- The inside of a string takes no more characters than there are. -/
theorem extent_stringBody_le (cs : List Char) : (stringBody cs).extent ≤ cs.length := by
  fun_induction stringBody cs with
  | case1 | case2 | case3 | case5 => simp [Body.extent]
  | case4 e cs c _ ih | case6 c cs _ _ _ ih =>
    simp only [Body.extent_push, List.length_cons]
    omega

/-- How many characters of the text a result takes. -/
def extent : Scan → Nat
  | .lexeme _ n => n
  | .fault _ n => n

theorem extent_scanString (cs : List Char) :
    (scanString cs).extent = 1 + (stringBody cs).extent := by
  unfold scanString
  cases stringBody cs <;> rfl

/-- A character literal that is not closed takes what was read of it and no more than there is. -/
theorem extent_unclosedChar (n : Nat) (cs : List Char) :
    n ≤ (unclosedChar n cs).extent ∧ (unclosedChar n cs).extent ≤ n + cs.length := by
  unfold unclosedChar
  simp only
  split
  · rename_i rest hrest
    have hlen := congrArg List.length hrest
    simp only [List.length_drop, List.length_cons] at hlen
    simp only [extent]
    omega
  · have hle := length_takeWhile_le (fun c => c != '\'' && !isLineEnd c) cs
    simp only [extent]
    omega

/-- What is read of a character literal is taken, and no more than there is. -/
theorem extent_closeChar (value : Char) (n : Nat) (cs : List Char) :
    n ≤ (closeChar value n cs).extent ∧ (closeChar value n cs).extent ≤ n + cs.length := by
  unfold closeChar
  split
  · simp only [extent, List.length_cons]
    omega
  · exact extent_unclosedChar n cs

/-- A character literal takes at least its opening mark. -/
theorem extent_scanChar (cs : List Char) :
    0 < (scanChar cs).extent ∧ (scanChar cs).extent ≤ 1 + cs.length := by
  unfold scanChar
  split
  · simp [extent]
  · simp only [extent, List.length_cons]
    omega
  · simp [extent]
  · rename_i e rest
    cases unescape? e with
    | some c =>
      have h := extent_closeChar c 3 rest
      simp only [List.length_cons]
      omega
    | none =>
      simp only [extent, List.length_cons]
      omega
  · rename_i c rest _ _ _
    split
    · simp [extent]
    · have h := extent_closeChar c 2 rest
      simp only [List.length_cons]
      omega

theorem blockLength?_le {cs : List Char} {n : Nat} (h : blockLength? cs = some n) :
    n ≤ cs.length := by
  fun_induction blockLength? cs generalizing n with
  | case1 => simp at h
  | case2 rest =>
    obtain rfl : 2 = n := by simpa using h
    simp
  | case3 c rest _ ih =>
    obtain ⟨m, hm, rfl⟩ := Option.map_eq_some_iff.1 h
    have := ih hm
    simp only [List.length_cons]
    omega

/-- An operator that is found is one of the language, and the text starts with it. -/
theorem operator?_eq_some {cs : List Char} {op : String} (h : operator? cs = some op) :
    op ∈ operators ∧ op.toList <+: cs := by
  refine ⟨List.mem_of_find?_eq_some h, ?_⟩
  have hprefix := List.find?_some (p := fun op : String => op.toList.isPrefixOf cs) h
  exact List.isPrefixOf_iff_prefix.1 hprefix

theorem length_pos_of_mem_operators {op : String} (h : op ∈ operators) : 0 < op.length := by
  revert op
  decide

end Scan

open Scan in
/-- What is found at the start of a text takes at least one of its characters. -/
theorem extent_of_scan {cs : List Char} {r : Scan} (h : scan cs = some r) :
    0 < r.extent ∧ r.extent ≤ cs.length := by
  cases cs with
  | nil => simp [scan] at h
  | cons c cs =>
    have hword := length_takeWhile_le inWord cs
    have hblank := length_takeWhile_le isInlineBlank cs
    have hline := length_takeWhile_le (fun d => !isLineEnd d) cs
    have hnumber := numberLength_le (!hasRadix (c :: cs)) (!hasRadix (c :: cs)) cs
    rw [List.length_cons]
    cases scan_cons_iff.1 h with
    | word _ | number _ _ | lineFeed _ | blank _ _ _ _ | lineComment _ _ =>
      simp only [taken, extent]
      omega
    | string _ =>
      have := extent_stringBody_le cs
      rw [extent_scanString]
      omega
    | char _ =>
      have := extent_scanChar cs
      omega
    | carriageReturn _ =>
      simp only [taken, extent]
      split
      · rename_i hhead
        have : cs ≠ [] := by
          rintro rfl
          simp at hhead
        have := List.length_pos_iff.2 this
        omega
      · omega
    | blockComment _ hm hn =>
      have hle := blockLength?_le hn
      have : cs ≠ [] := by
        rintro rfl
        simp at hm
      have := List.length_pos_iff.2 this
      simp only [List.length_drop] at hle
      simp only [taken, extent]
      omega
    | openComment _ _ _ => simp [extent]
    | operator _ _ hop =>
      obtain ⟨hmem, hprefix⟩ := operator?_eq_some hop
      have hle := hprefix.length_le
      rw [String.length_toList, List.length_cons] at hle
      exact ⟨length_pos_of_mem_operators hmem, hle⟩
    | unrecognized _ _ => simp [extent]

namespace Scan

/-- A character literal is closed by the mark right after its character. -/
theorem closeChar_eq_lexeme {value : Char} {m n : Nat} {cs : List Char} {l : Lexeme}
    (h : closeChar value m cs = .lexeme l n) :
    l = .char value ∧ n = m + 1 ∧ cs.head? = some '\'' := by
  unfold closeChar at h
  split at h
  · obtain ⟨rfl, rfl⟩ := Scan.lexeme.inj h
    exact ⟨rfl, rfl, rfl⟩
  · unfold unclosedChar at h
    simp only at h
    split at h <;> cases h

/-- What starts with the mark of a character is a character or a fault. -/
theorem scanChar_eq_lexeme {cs : List Char} {l : Lexeme} {n : Nat} (h : scanChar cs = .lexeme l n) :
    ∃ value, l = .char value := by
  unfold scanChar at h
  split at h
  · cases h
  · cases h
  · cases h
  · split at h
    · exact ⟨_, (closeChar_eq_lexeme h).1⟩
    · cases h
  · split at h
    · cases h
    · exact ⟨_, (closeChar_eq_lexeme h).1⟩

/-- A word keeps its text, whether it is reserved or not. -/
theorem text_wordLexeme (text : String) : (wordLexeme text).text = text := by
  unfold wordLexeme
  split
  · rename_i word h
    simpa [Lexeme.text, Keyword.ofText?] using List.find?_some h
  · rfl

end Scan

open Scan in
/-- A lexeme says what it was read from, unless it is a string or character literal. -/
theorem text_of_scan {cs : List Char} {l : Lexeme} {n : Nat} (h : scan cs = some (.lexeme l n))
    (hstring : l.kind ≠ .string) (hchar : l.kind ≠ .char) : l.text = String.ofList (cs.take n) := by
  cases cs with
  | nil => simp [scan] at h
  | cons c cs =>
    have hcase := scan_cons_iff.1 h
    generalize hr : Scan.lexeme l n = r at hcase
    cases hcase with
    | word _ =>
      obtain ⟨rfl, rfl⟩ := Scan.lexeme.inj hr
      exact text_wordLexeme _
    | number _ _ | lineFeed _ | carriageReturn _ | blank _ _ _ _ | lineComment _ _
    | blockComment _ _ _ =>
      obtain ⟨rfl, rfl⟩ := Scan.lexeme.inj hr
      rfl
    | string _ =>
      unfold scanString at hr
      split at hr
      · obtain ⟨rfl, -⟩ := Scan.lexeme.inj hr
        exact absurd rfl hstring
      · cases hr
    | char _ =>
      obtain ⟨value, rfl⟩ := scanChar_eq_lexeme hr.symm
      exact absurd rfl hchar
    | openComment _ _ _ => cases hr
    | operator _ _ hop =>
      obtain ⟨rfl, rfl⟩ := Scan.lexeme.inj hr
      obtain ⟨-, rest, hrest⟩ := operator?_eq_some hop
      simp [Lexeme.text, ← hrest, ← String.length_toList]
    | unrecognized _ _ => cases hr

/-! ## Separators -/

namespace Scan

/-- What is taken from a text does not depend on what comes after it. -/
theorem taken_append (make : String → Lexeme) {cs : List Char} {n : Nat} (h : n ≤ cs.length)
    (more : List Char) :
    taken make (cs ++ more) n = taken make cs n := by
  rw [taken, taken, List.take_append_of_le_length h]

/-- A character that ends every word before it. -/
def IsSeparator (c : Char) : Prop :=
  c = ' ' ∨ c = '\n'

/-- A separator is no part of a word. -/
theorem IsSeparator.inWord {c : Char} (h : IsSeparator c) : inWord c = false := by
  rcases h with rfl | rfl <;> rfl

/-- A separator is no part of an operator. -/
theorem IsSeparator.not_mem_operator {c : Char} (h : IsSeparator c) {op : String}
    (hop : op ∈ operators) :
    c ∉ op.toList := by
  rcases h with rfl | rfl <;> revert op <;> decide

variable {sep : Char} (hsep : IsSeparator sep) (rest : List Char)
include hsep

omit hsep in
theorem takeWhile_append_of_not {test : Char → Bool} {c : Char} (h : test c = false)
    (cs : List Char) :
    (cs ++ c :: rest).takeWhile test = cs.takeWhile test := by
  induction cs with
  | nil => simp [h]
  | cons d cs ih => simp [List.takeWhile_cons, ih]

/-- A word ends at a separator. -/
theorem takeWhile_inWord_append (cs : List Char) :
    (cs ++ sep :: rest).takeWhile inWord = cs.takeWhile inWord :=
  takeWhile_append_of_not rest hsep.inWord cs

theorem digitNext_append (cs : List Char) : digitNext (cs ++ sep :: rest) = digitNext cs := by
  cases cs with
  | nil => rcases hsep with rfl | rfl <;> rfl
  | cons c cs => rfl

/-- A separator after a number does not change its radix. -/
theorem hasRadix_append (c : Char) (cs : List Char) :
    hasRadix (c :: cs ++ sep :: rest) = hasRadix (c :: cs) := by
  cases cs with
  | nil =>
    by_cases hc : c = '0'
    · subst hc
      rcases hsep with rfl | rfl <;> rfl
    · simp [hasRadix, hc]
  | cons d cs => by_cases hc : c = '0' <;> simp [hasRadix, hc]

/-- A number ends at a separator. -/
theorem numberLength_append (plain whole : Bool) (cs : List Char) :
    numberLength plain whole (cs ++ sep :: rest) = numberLength plain whole cs := by
  have hword := hsep.inWord
  have hdot : sep ≠ '.' := by rcases hsep with rfl | rfl <;> decide
  have hsign : sep ≠ '+' ∧ sep ≠ '-' := by rcases hsep with rfl | rfl <;> decide
  have hdigit := digitNext_append hsep rest
  have hend : ∀ whole, numberLength plain whole (sep :: rest) = 0 := by
    intro whole
    rw [numberLength.eq_def]
    simp [hword, hdot]
  fun_induction numberLength plain whole cs with
  | case1 whole => exact hend whole
  | case2 whole c hc he =>
    rw [List.cons_append, List.nil_append, numberLength.eq_def]
    simp [hc, he, hsign, hend]
  | case3 whole c hc he s cs hs ih =>
    rw [List.cons_append, List.cons_append, numberLength.eq_def]
    simp [hc, he, hs, ih, hdigit]
  | case4 whole c hc he s cs hs ih =>
    rw [List.cons_append, List.cons_append, numberLength.eq_def]
    simp only [List.cons_append] at ih
    simp [hc, he, hs, ih, hdigit]
  | case5 whole c cs hc he ih =>
    rw [List.cons_append, numberLength.eq_def]
    simp [hc, he, ih]
  | case6 whole c cs hc hd ih =>
    rw [List.cons_append, numberLength.eq_def]
    simp [hc, hd, ih, hdigit]
  | case7 whole c cs hc hd =>
    rw [List.cons_append, numberLength.eq_def]
    simp [hc, hd, hdigit]

/-- An operator is found before a separator just as at the end of the text. -/
theorem operator?_append {cs : List Char} {op : String} (h : operator? cs = some op) :
    operator? (cs ++ sep :: rest) = some op := by
  obtain ⟨hop, l₁, l₂, heq, hfirst⟩ := List.find?_eq_some_iff_append.1 h
  refine List.find?_eq_some_iff_append.2 ⟨?_, l₁, l₂, heq, fun op' hop' => ?_⟩
  · obtain ⟨more, hmore⟩ := List.isPrefixOf_iff_prefix.1 hop
    exact List.isPrefixOf_iff_prefix.2 ⟨more ++ sep :: rest, by rw [← List.append_assoc, hmore]⟩
  · -- an operator that starts the longer text holds no separator, so it starts the shorter one
    rw [Bool.not_eq_true', Bool.eq_false_iff]
    intro hprefix
    have hmem : op' ∈ operators := by simp [heq, hop']
    have hstart := List.isPrefixOf_iff_prefix.1 hprefix
    have hshort : op'.toList <+: cs := by
      rcases List.prefix_or_prefix_of_prefix hstart (List.prefix_append cs _) with
          hshort | ⟨more, hmore⟩
      · exact hshort
      · rw [← hmore, List.prefix_append_right_inj] at hstart
        cases more with
        | nil => simp [← hmore]
        | cons d more =>
          obtain ⟨rfl, -⟩ := List.cons_prefix_cons.1 hstart
          exact absurd (by simp [← hmore]) (hsep.not_mem_operator hmem)
    have hnone := hfirst op' hop'
    simp [List.isPrefixOf_iff_prefix.2 hshort] at hnone

omit hsep in
/-- A character that is read neither as a last backslash nor as one before an escape
letter is no backslash. -/
theorem ne_backslash {c : Char} {cs : List Char} (hlast : c = '\\' → cs = [] → False)
    (hslash : ∀ e rest, c = '\\' → cs = e :: rest → False) : c ≠ '\\' := by
  rintro rfl
  cases cs with
  | nil => exact hlast rfl rfl
  | cons e rest => exact hslash e rest rfl rfl

omit hsep in
theorem stringBody_cons {c : Char} (hquote : c ≠ '"') (hslash : c ≠ '\\') (cs : List Char) :
    stringBody (c :: cs) = (stringBody cs).push c 1 := by
  simp [stringBody, hslash]

omit hsep in
/-- A string literal that is closed stays as it is. -/
theorem stringBody_append {cs : List Char} {value : List Char} {n : Nat}
    (h : stringBody cs = .closed value n) (more : List Char) :
    stringBody (cs ++ more) = .closed value n := by
  fun_induction stringBody cs generalizing value n with
  | case1 => cases h
  | case2 cs => simpa [stringBody] using h
  | case3 => cases h
  | case4 e cs c he ih =>
    cases hbody : stringBody cs with
    | broken why m => simp [hbody, Body.push] at h
    | closed value' m =>
      simp only [hbody, Body.push] at h
      simp [stringBody, he, ih hbody, Body.push, h]
  | case5 e cs he => cases h
  | case6 c cs hquote hlast hslash ih =>
    have hc := ne_backslash hlast hslash
    cases hbody : stringBody cs with
    | broken why m => simp [hbody, Body.push] at h
    | closed value' m =>
      simp only [hbody, Body.push] at h
      rw [List.cons_append, stringBody_cons hquote hc, ih hbody, ← h]
      rfl

omit hsep in
/-- A character literal is found whatever comes after it. -/
theorem scanChar_append {cs : List Char} {l : Lexeme} {n : Nat} (h : scanChar cs = .lexeme l n)
    (more : List Char) : scanChar (cs ++ more) = .lexeme l n := by
  have hclose : ∀ {value : Char} {m : Nat} {cs : List Char}, closeChar value m cs = .lexeme l n →
      closeChar value m (cs ++ more) = .lexeme l n := by
    intro value m cs hc
    obtain ⟨rfl, rfl, hhead⟩ := closeChar_eq_lexeme hc
    obtain ⟨tail, rfl⟩ := List.head?_eq_some_iff.1 hhead
    rfl
  unfold scanChar at h
  split at h
  · cases h
  · cases h
  · cases h
  · split at h
    · rename_i e rest c he
      simp [scanChar, he, hclose h]
    · cases h
  · rename_i c rest hquote hlast hslash
    have hc := ne_backslash hlast hslash
    split at h
    · cases h
    · rename_i hline
      simp [scanChar, hc, hline, hclose h]

end Scan

open Scan in
/-- A lexeme that carries meaning stays as it is when a separator follows the text. -/
theorem scan_append_separator {w : List Char} {l : Lexeme} {n : Nat}
    (h : scan w = some (.lexeme l n)) (hl : l.kind.isTrivia = false) {sep : Char}
    (hsep : IsSeparator sep) (rest : List Char) :
    scan (w ++ sep :: rest) = some (.lexeme l n) := by
  cases w with
  | nil => simp [scan] at h
  | cons c cs =>
    have hlength : n ≤ (c :: cs).length := (extent_of_scan h).2
    have hcase := scan_cons_iff.1 h
    rw [List.cons_append, scan_cons_iff]
    have htake := fun make => taken_append make hlength (sep :: rest)
    generalize hr : Scan.lexeme l n = r at hcase
    cases hcase with
    | word hw =>
      have hn := (Scan.lexeme.inj hr).2
      have hword := @ScanCase.word c (cs ++ sep :: rest) hw
      rw [takeWhile_inWord_append hsep, ← hn, ← List.cons_append, htake, hn] at hword
      exact hword
    | number hw hd =>
      have hn := (Scan.lexeme.inj hr).2
      have hnumber := @ScanCase.number c (cs ++ sep :: rest) hw hd
      rw [← List.cons_append, hasRadix_append hsep, numberLength_append hsep, ← hn, htake,
        hn] at hnumber
      exact hnumber
    | string hs =>
      have hstring := @ScanCase.string c (cs ++ sep :: rest) hs
      have heq : scanString (cs ++ sep :: rest) = scanString cs := by
        unfold scanString at hr ⊢
        split at hr
        · rename_i value n hbody
          simp only [stringBody_append hbody]
        · cases hr
      rw [heq] at hstring
      exact hstring
    | char hc =>
      have hchar := @ScanCase.char c (cs ++ sep :: rest) hc
      rw [scanChar_append hr.symm, hr] at hchar
      exact hchar
    | lineFeed _ | carriageReturn _ | blank _ _ _ _ | lineComment _ _ | blockComment _ _ _ =>
      obtain ⟨rfl, -⟩ := Scan.lexeme.inj hr
      cases hl
    | openComment _ _ _ => cases hr
    | operator hmark hslash hop =>
      refine .operator hmark (fun heq => ?_) (operator?_append hsep rest hop)
      cases cs with
      | nil => rcases hsep with rfl | rfl <;> simp
      | cons d cs => exact hslash heq
    | unrecognized _ _ => cases hr

end Rill
