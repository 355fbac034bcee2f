import Mathlib.Data.List.TakeWhile
import Rill.Proofs.Places

/-!
# Lexemes take as much as they can

Where a token starts, its kind settles where it ends : `Lexeme.Longest` says, kind by kind, that
no more of the text could belong to the lexeme. A mark is the longest one that the text starts
with there, a word or number ends before a character that no word holds, a comment ends at the
first place where it may. `Buffer.longest_match` says so of every token of every text, also of
those before a lexical fault.
-/

namespace Rill

/-! ## What ends a lexeme -/

/-- Nothing follows that could stand in a word. -/
def EndsWord (after : List Char) : Prop :=
  ∀ c ∈ after.head?, c ≠ '_' ∧ Text.isAlphanumeric c = false

/-- A comment up to the end of its line. -/
structure LineComment (text after : List Char) : Prop where
  opens : ['/', '/'] <+: text
  inLine : ∀ c ∈ text, c ≠ '\n' ∧ c ≠ '\r'
  ends : ∀ c ∈ after.head?, c = '\n' ∨ c = '\r'

/-- A comment between marks. After its opening mark, the closing one stands at its end and
nowhere before. -/
def BlockComment (text : List Char) : Prop :=
  ∃ inside, text = '/' :: '*' :: (inside ++ ['*', '/']) ∧ ¬ ['*', '/'] <:+: inside ++ ['*']

/-- A mark of punctuation that no longer one of the list could replace, where no comment starts. -/
structure LongestMark (op : String) (rest : List Char) : Prop where
  listed : op ∈ Scan.operators
  starts : op.toList <+: rest
  longest : ∀ op' ∈ Scan.operators, op'.toList <+: rest → op'.length ≤ op.length
  noLineComment : ¬ ['/', '/'] <+: rest
  noBlockComment : ¬ ['/', '*'] <+: rest

/-- What holds of a lexeme with the given text if as much as possible of the whole text
is part of it. -/
def Lexeme.Longest (text after : List Char) : Lexeme → Prop
  | .identifier name => text = name.toList ∧ (∀ word : Keyword, word.text ≠ name) ∧ EndsWord after
  | .keyword word => text = word.text.toList ∧ EndsWord after
  | .number word => text = word.toList ∧ EndsWord after
  | .blank _ => ∀ c ∈ after.head?, Text.isBlank c → c = '\n' ∨ c = '\r'
  | .lineBreak _ => text = ['\r'] → after.head? ≠ some '\n'
  | .comment _ => LineComment text after ∨ BlockComment text
  | .punctuation op => text = op.toList ∧ LongestMark op (text ++ after)
  | .string _ | .char _ => True

/-! ## Words -/

theorem Keyword.mem_all (word : Keyword) : word ∈ all := by
  rcases word with (_ | _) | _ | type
  · decide
  · decide
  · decide
  · cases type <;> decide

theorem Keyword.text_ne_of_ofText? {text : String} (h : ofText? text = none) (word : Keyword) :
    word.text ≠ text := by
  have hne := List.find?_eq_none.1 h word word.mem_all
  simpa using hne

namespace Scan

variable {cs : List Char}

/-- What follows the longest piece of characters of a class is not in the class. -/
theorem head?_drop_takeWhile (test : Char → Bool) (cs : List Char) :
    ∀ c ∈ (cs.drop (cs.takeWhile test).length).head?, test c = false := by
  induction cs with
  | nil => simp
  | cons d cs ih =>
    by_cases hd : test d
    · rw [List.takeWhile_cons_of_pos hd]
      exact ih
    · rw [List.takeWhile_cons_of_neg hd]
      simpa using hd

theorem endsWord_of_inWord {after : List Char} (h : ∀ c ∈ after.head?, inWord c = false) :
    EndsWord after := by
  intro c hc
  have hword := h c hc
  rw [inWord, Bool.or_eq_false_iff, beq_eq_false_iff_ne] at hword
  exact hword

/-- A number ends before a character that no word holds. -/
theorem head?_drop_numberLength (plain whole : Bool) (cs : List Char) :
    ∀ c ∈ (cs.drop (numberLength plain whole cs)).head?, inWord c = false := by
  fun_induction numberLength plain whole cs with
  | case1 | case2 => simp
  | case3 whole c hc he s rest hs ih =>
    rw [Nat.add_comm]
    exact ih
  | case4 whole c hc he s rest hs ih =>
    rw [Nat.add_comm]
    exact ih
  | case5 whole c rest hc he ih | case6 whole c rest hc hd ih =>
    rw [Nat.add_comm]
    exact ih
  | case7 whole c rest hc hd => simpa using hc

/-! ## Comments -/

theorem lineComment_of_slashes (rest : List Char) :
    LineComment
      (('/' :: '/' :: rest).take (1 + (('/' :: rest).takeWhile fun d => !isLineEnd d).length))
        (('/' :: '/' :: rest).drop
          (1 + (('/' :: rest).takeWhile fun d => !isLineEnd d).length)) := by
  have htake :
      ('/' :: '/' :: rest).take (1 + (('/' :: rest).takeWhile fun d => !isLineEnd d).length) =
      '/' :: '/' :: rest.takeWhile fun d => !isLineEnd d := by
    rw [Nat.add_comm, List.take_succ_cons, ← List.prefix_iff_eq_take.1 (List.takeWhile_prefix _)]
    rfl
  refine ⟨?_, ?_, fun d hd => ?_⟩
  · rw [htake]
    exact ⟨_, rfl⟩
  · rw [htake, List.forall_mem_cons, List.forall_mem_cons]
    refine ⟨by decide, by decide, fun d hd => isLineEnd_eq_false_iff.1 ?_⟩
    simpa using List.mem_takeWhile_imp hd
  · rw [Nat.add_comm] at hd
    have hline := head?_drop_takeWhile (fun d => !isLineEnd d) _ d hd
    exact isLineEnd_iff.1 (by simpa using hline)

/-- The end of a block comment is the first mark that closes it. -/
theorem exists_of_blockLength? {n : Nat} (h : blockLength? cs = some n) :
    ∃ inside, cs.take n = inside ++ ['*', '/'] ∧ ¬ ['*', '/'] <:+: inside ++ ['*'] := by
  fun_induction blockLength? cs generalizing n with
  | case1 => cases h
  | case2 rest =>
    obtain rfl : 2 = n := Option.some.inj h
    refine ⟨[], rfl, fun hmark => ?_⟩
    have hlength := hmark.length_le
    simp at hlength
  | case3 c rest hopen ih =>
    obtain ⟨m, hm, rfl⟩ := Option.map_eq_some_iff.1 h
    obtain ⟨inside, htake, hnone⟩ := ih hm
    refine ⟨c :: inside, by rw [Nat.add_comm, List.take_succ_cons, htake, List.cons_append],
      fun hmark => ?_⟩
    rw [List.cons_append, List.infix_cons_iff] at hmark
    obtain hmark | hmark := hmark
    · -- then the comment would end right here
      obtain ⟨rfl, hslash⟩ := List.cons_prefix_cons.1 hmark
      obtain ⟨tail, htail⟩ : ∃ tail, rest = '/' :: tail := by
        cases inside with
        | nil => exact absurd hslash (by decide)
        | cons d inside =>
          obtain ⟨rfl, -⟩ := List.cons_prefix_cons.1 hslash
          cases rest with
          | nil => simp at htake
          | cons d rest =>
            cases m with
            | zero => simp at htake
            | succ m => exact ⟨rest, by rw [(List.cons.inj htake).1]⟩
      exact hopen tail rfl htail
    · exact hnone hmark

/-! ## Marks -/

/-- The list has longer marks first, so the first that fits is the longest. -/
theorem length_le_of_operator? {op : String} (h : operator? cs = some op) :
    ∀ op' ∈ operators, op'.toList <+: cs → op'.length ≤ op.length := by
  intro op' hop' hprefix
  obtain ⟨-, l₁, l₂, heq, hfirst⟩ := List.find?_eq_some_iff_append.1 h
  have hsorted : operators.Pairwise fun a b => b.length ≤ a.length := by decide
  rw [heq, List.pairwise_append, List.pairwise_cons] at hsorted
  rw [heq, List.mem_append, List.mem_cons] at hop'
  obtain hbefore | rfl | hafter := hop'
  · have hnot := hfirst op' hbefore
    simp [List.isPrefixOf_iff_prefix.2 hprefix] at hnot
  · exact Nat.le_refl _
  · exact hsorted.2.1.1 op' hafter

theorem longestMark_of_operator? {c : Char} {op : String} (h : operator? (c :: cs) = some op)
    (hslash : c = '/' → cs.head? ≠ some '/' ∧ cs.head? ≠ some '*') : LongestMark op (c :: cs) := by
  obtain ⟨hlisted, hstarts⟩ := operator?_eq_some h
  have hcomment : ∀ d : Char, (c = '/' → cs.head? ≠ some d) → ¬ ['/', d] <+: c :: cs := by
    rintro d hd hopens
    obtain ⟨rfl, hnext⟩ := List.cons_prefix_cons.1 hopens
    obtain ⟨rest, rfl⟩ := hnext
    exact hd rfl rfl
  exact ⟨hlisted, hstarts, length_le_of_operator? h, hcomment '/' fun hc => (hslash hc).1,
    hcomment '*' fun hc => (hslash hc).2⟩

end Scan

/-! ## All lexemes -/

open Scan in
theorem longest_wordLexeme (text : String) {after : List Char} (h : EndsWord after) :
    (wordLexeme text).Longest text.toList after := by
  have htext := text_wordLexeme text
  unfold wordLexeme at htext ⊢
  split
  next word hword =>
    rw [hword] at htext
    exact ⟨by rw [← htext]; rfl, h⟩
  next hnone => exact ⟨rfl, Keyword.text_ne_of_ofText? hnone, h⟩

open Scan in
/-- A lexeme that is read from a text could not be longer. -/
theorem longest_of_scan {cs : List Char} {l : Lexeme} {n : Nat} (h : scan cs = some (.lexeme l n)) :
    l.Longest (cs.take n) (cs.drop n) := by
  cases cs with
  | nil => cases h
  | cons c cs =>
    have hcase := scan_cons_iff.1 h
    generalize hr : Scan.lexeme l n = r at hcase
    cases hcase with
    | word hw =>
      obtain ⟨rfl, rfl⟩ := Scan.lexeme.inj hr
      have hends : EndsWord ((c :: cs).drop (1 + (cs.takeWhile inWord).length)) := by
        rw [Nat.add_comm]
        exact endsWord_of_inWord (head?_drop_takeWhile inWord cs)
      simpa using longest_wordLexeme (String.ofList _) hends
    | number hw hd =>
      obtain ⟨rfl, rfl⟩ := Scan.lexeme.inj hr
      refine ⟨String.toList_ofList.symm, ?_⟩
      rw [Nat.add_comm]
      exact endsWord_of_inWord (head?_drop_numberLength _ _ cs)
    | string _ =>
      unfold scanString at hr
      split at hr
      · obtain ⟨rfl, -⟩ := Scan.lexeme.inj hr
        trivial
      · cases hr
    | char _ =>
      obtain ⟨value, rfl⟩ := scanChar_eq_lexeme hr.symm
      trivial
    | lineFeed hc =>
      obtain ⟨rfl, rfl⟩ := Scan.lexeme.inj hr
      subst hc
      exact fun hreturn => absurd hreturn (by simp)
    | carriageReturn hc =>
      obtain ⟨rfl, rfl⟩ := Scan.lexeme.inj hr
      subst hc
      intro hreturn
      split at hreturn
      next hhead =>
        obtain ⟨rest, rfl⟩ := List.head?_eq_some_iff.1 hhead
        cases hreturn
      next hhead => rwa [if_neg hhead]
    | blank _ _ _ _ =>
      obtain ⟨rfl, rfl⟩ := Scan.lexeme.inj hr
      intro d hd hblank
      rw [Nat.add_comm] at hd
      have hinline := head?_drop_takeWhile isInlineBlank cs d hd
      rw [isInlineBlank, hblank, Bool.true_and, Bool.not_eq_false'] at hinline
      exact isLineEnd_iff.1 hinline
    | lineComment hc hhead =>
      obtain ⟨rfl, rfl⟩ := Scan.lexeme.inj hr
      obtain ⟨rest, rfl⟩ := List.head?_eq_some_iff.1 hhead
      subst hc
      exact .inl (lineComment_of_slashes rest)
    | blockComment hc hhead hblock =>
      obtain ⟨rfl, rfl⟩ := Scan.lexeme.inj hr
      obtain ⟨rest, rfl⟩ := List.head?_eq_some_iff.1 hhead
      subst hc
      obtain ⟨inside, htake, hnone⟩ := exists_of_blockLength? hblock
      refine .inr ⟨inside, ?_, hnone⟩
      rw [← htake, Nat.add_comm]
      rfl
    | @operator op hmark hslash hop =>
      obtain ⟨rfl, rfl⟩ := Scan.lexeme.inj hr
      have hlongest := longestMark_of_operator? hop hslash
      have htake : (c :: cs).take op.length = op.toList := by
        rw [← String.length_toList]
        exact (List.prefix_iff_eq_take.1 hlongest.starts).symm
      exact ⟨htake, by rwa [List.take_append_drop]⟩
    | openComment _ _ _ | unrecognized _ _ => cases hr

/-- Every token takes as much of the text as it can. A mark is the longest of the list that the text
starts with there, and starts no comment; a word or number ends where no character of a word
follows, and an identifier is no reserved word; blanks end where no blank of the same line follows;
a comment ends with its line, or with the first mark that closes it. -/
theorem Buffer.longest_match {b : Buffer} {t : Token} (h : .ok t ∈ b.items) : ∃ before text after,
    b.chars = before ++ (text ++ after) ∧
      b.range? (byteLength before) (byteLength (before ++ text)) = some t.range ∧
      t.lexeme.Longest text after := by
  obtain ⟨ts, c', error, hwalk, -, hitems⟩ := b.exists_walk_items
  have ht : t ∈ ts := by simpa [hitems, walkItems] using h
  obtain ⟨before, d, n, hd, hscan, hrange⟩ := (Cursor.at_start b).exists_scan hwalk t ht
  refine ⟨before, d.rest.take n, d.rest.drop n, ?_, ?_, longest_of_scan hscan⟩
  · rw [List.take_append_drop, hd.chars]
  · rw [← hd.offset, ← (hd.advance n).offset, hd.range?, hrange]

/-- A comment whose opening mark overlaps what looks like a closing one, and which
ends at the next. -/
theorem Buffer.longest_match_overlapping :
    .ok ⟨.comment "/*/*/", ⟨1, 2⟩, ⟨1, 7⟩⟩ ∈ (anonymous "a/*/*/*/").items ∧
      ∃ before text after, (anonymous "a/*/*/*/").chars = before ++ (text ++ after) ∧
        (anonymous "a/*/*/*/").range? (byteLength before) (byteLength (before ++ text)) =
          some ⟨⟨1, 2⟩, ⟨1, 7⟩⟩ ∧
        (LineComment text after ∨ BlockComment text) := by
  have hmem : .ok ⟨.comment "/*/*/", ⟨1, 2⟩, ⟨1, 7⟩⟩ ∈ (anonymous "a/*/*/*/").items := by
    decide +kernel
  exact ⟨hmem, longest_match hmem⟩

end Rill
