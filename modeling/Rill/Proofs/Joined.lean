import Rill.Proofs.Places
import Rill.Proofs.ProgramAgreement

/-!
# Texts joined by a line break

No lexeme but a line break reaches over a line feed. So a text that is cut into tokens up to its end
is cut into the same tokens when a line feed and another text follow, and that other text is cut as
if it stood alone : the joined text has the words of both (`Buffer.words_joined`). One token can
change, a carriage return at the very end, which then makes one line break with the line feed.
-/

namespace Rill

/-! ## One lexeme -/

namespace Scan

theorem isTrivia_wordLexeme (text : String) : (wordLexeme text).kind.isTrivia = false := by
  unfold wordLexeme
  split <;> rfl

/-- A block comment that is closed ends where it did, whatever follows. -/
theorem blockLength?_append {cs : List Char} {n : Nat} (h : blockLength? cs = some n)
    (more : List Char) :
    blockLength? (cs ++ more) = some n := by
  fun_induction blockLength? cs generalizing n with
  | case1 => cases h
  | case2 cs => exact h
  | case3 c cs hopen ih =>
    obtain ⟨m, hm, rfl⟩ := Option.map_eq_some_iff.1 h
    have hcons : blockLength? (c :: (cs ++ more)) = (blockLength? (cs ++ more)).map (1 + ·) := by
      refine blockLength?.eq_3 c (cs ++ more) fun rest hc hrest => ?_
      cases cs with
      | nil => simp [blockLength?] at hm
      | cons d cs => exact hopen cs hc (congrArg (· :: cs) (List.cons.inj hrest).1)
    rw [List.cons_append, hcons, ih hm]
    rfl

end Scan

open Scan in
/-- A lexeme stays as it is when a line feed follows the text, unless the text is a
carriage return. -/
theorem scan_append_lineFeed {w : List Char} {l : Lexeme} {n : Nat}
    (h : scan w = some (.lexeme l n)) (hw : w ≠ ['\r']) (more : List Char) :
    scan (w ++ '\n' :: more) = some (.lexeme l n) := by
  by_cases hl : l.kind.isTrivia = false
  · exact scan_append_separator h hl (.inr rfl) more
  cases w with
  | nil => cases h
  | cons c cs =>
    have hlength : n ≤ (c :: cs).length := (extent_of_scan h).2
    have hcase := scan_cons_iff.1 h
    rw [List.cons_append, scan_cons_iff]
    have htake := fun make => taken_append make hlength ('\n' :: more)
    generalize hr : Scan.lexeme l n = r at hcase
    cases hcase with
    | lineFeed hc =>
      have hn := (Scan.lexeme.inj hr).2
      have hlong := @ScanCase.lineFeed c (cs ++ '\n' :: more) hc
      rwa [← hn, ← List.cons_append, htake, hn] at hlong
    | carriageReturn hc =>
      have hn := (Scan.lexeme.inj hr).2
      have hlong := @ScanCase.carriageReturn c (cs ++ '\n' :: more) hc
      have hhead : (cs ++ '\n' :: more).head? = cs.head? := by
        cases cs with
        | nil => exact absurd (congrArg (fun c => [c]) hc) hw
        | cons d cs => rfl
      rwa [hhead, ← hn, ← List.cons_append, htake, hn] at hlong
    | blank hword hdigit hblank hline =>
      have hn := (Scan.lexeme.inj hr).2
      have hlong := @ScanCase.blank c (cs ++ '\n' :: more) hword hdigit hblank hline
      rwa [takeWhile_append_of_not _ rfl, ← hn, ← List.cons_append, htake, hn] at hlong
    | lineComment hc hhead =>
      have hn := (Scan.lexeme.inj hr).2
      have hlong := @ScanCase.lineComment c (cs ++ '\n' :: more) hc (by simp [hhead])
      rwa [takeWhile_append_of_not _ rfl, ← hn, ← List.cons_append, htake, hn] at hlong
    | blockComment hc hhead hblock =>
      have hn := (Scan.lexeme.inj hr).2
      obtain ⟨tail, rfl⟩ := List.head?_eq_some_iff.1 hhead
      have hlong :=
        @ScanCase.blockComment c ('*' :: tail ++ '\n' :: more) _ hc rfl
          (blockLength?_append hblock _)
      rwa [← hn, ← List.cons_append, htake, hn] at hlong
    -- the others carry meaning
    | word _ =>
      obtain ⟨rfl, -⟩ := Scan.lexeme.inj hr
      exact absurd (isTrivia_wordLexeme _) hl
    | number _ _ =>
      obtain ⟨rfl, -⟩ := Scan.lexeme.inj hr
      exact absurd rfl hl
    | string _ =>
      unfold scanString at hr
      split at hr
      · obtain ⟨rfl, -⟩ := Scan.lexeme.inj hr
        exact absurd rfl hl
      · cases hr
    | char _ =>
      obtain ⟨value, rfl⟩ := scanChar_eq_lexeme hr.symm
      exact absurd rfl hl
    | operator _ _ _ =>
      obtain ⟨rfl, -⟩ := Scan.lexeme.inj hr
      exact absurd rfl hl
    | openComment _ _ _ => cases hr
    | unrecognized _ _ => cases hr

theorem scan_return_lineFeed (more : List Char) :
    scan ('\r' :: '\n' :: more) = some (.lexeme (.lineBreak "\r\n") 2) :=
  scan_cons_iff.2 (.carriageReturn rfl)

/-! ## Walks -/

namespace Walk

variable {c c' c'' d : Cursor} {ts us : List Token}

/-- Walks can be joined where one ends and the other starts. -/
theorem append (h : Walk c ts c') (h' : Walk c' us c'') : Walk c (ts ++ us) c'' := by
  induction h with
  | done c => exact h'
  | step hscan more ih => exact .step hscan (ih h')

/-- A walk over the same characters finds the same lexemes. -/
theorem elsewhere (h : Walk c ts c') (hd : d.rest = c.rest) :
    ∃ us d', Walk d us d' ∧ d'.rest = c'.rest ∧ us.map Token.lexeme = ts.map Token.lexeme := by
  induction h generalizing d with
  | done c => exact ⟨[], d, .done d, hd, rfl⟩
  | @step c c' l n ts hscan more ih =>
    have hrest : (d.advance n).rest = (c.advance n).rest := by simp only [Cursor.rest_advance, hd]
    obtain ⟨us, d', hwalk, hend, hlexemes⟩ := ih hrest
    rw [← hd] at hscan
    exact ⟨_, d', .step hscan hwalk, hend, by simp [hlexemes]⟩

theorem eq_nil (h : Walk c ts c') (hc : c.rest = []) : ts = [] := by
  cases h with
  | done => rfl
  | step hscan more =>
    rw [hc] at hscan
    cases hscan

end Walk

/-- The lexemes among some that carry meaning. -/
def meaningful (ls : List Lexeme) : List Lexeme := ls.filter fun l => !l.kind.isTrivia

/-- A walk to the end of a text finds the same lexemes when a line feed and more follow. -/
theorem Walk.joined {c c' d : Cursor} {ts : List Token} {more : List Char} (h : Walk c ts c')
    (hc' : c'.rest = []) (hd : d.rest = c.rest ++ '\n' :: more) :
    ∃ us d', Walk d us d' ∧ d'.rest = more ∧
      meaningful (us.map Token.lexeme) = meaningful (ts.map Token.lexeme) := by
  induction h generalizing d with
  | done c =>
    rw [hc', List.nil_append] at hd
    have hscan : scan d.rest = some (.lexeme (.lineBreak "\n") 1) := by
      rw [hd]
      exact scan_lineFeed more
    exact ⟨_, _, .step hscan (.done _), by rw [Cursor.rest_advance, hd]; rfl, rfl⟩
  | @step c c' l n ts hscan walk ih =>
    by_cases hreturn : c.rest = ['\r']
    · -- the carriage return and the line feed make one line break
      rw [hreturn] at hscan hd
      obtain ⟨rfl, rfl⟩ : Lexeme.lineBreak "\r" = l ∧ 1 = n :=
        Scan.lexeme.inj (Option.some.inj (hscan : some _ = some (Scan.lexeme l n)))
      have hlast : ts = [] := walk.eq_nil (by rw [Cursor.rest_advance, hreturn]; rfl)
      have hscan' : scan d.rest = some (.lexeme (.lineBreak "\r\n") 2) := by
        rw [hd]
        exact scan_return_lineFeed more
      exact ⟨_, _, .step hscan' (.done _), by rw [Cursor.rest_advance, hd]; rfl, by rw [hlast]; rfl⟩
    · have hlength : n ≤ c.rest.length := (extent_of_scan hscan).2
      have hscan' : scan d.rest = some (.lexeme l n) := by
        rw [hd]
        exact scan_append_lineFeed hscan hreturn more
      have hrest : (d.advance n).rest = (c.advance n).rest ++ '\n' :: more := by
        rw [Cursor.rest_advance, Cursor.rest_advance, hd, List.drop_append_of_le_length hlength]
      obtain ⟨us, d', hwalk, hend, hlexemes⟩ := ih hc' hrest
      refine ⟨_, d', .step hscan' hwalk, hend, ?_⟩
      simp only [meaningful, List.map_cons, List.filter_cons] at hlexemes ⊢
      rw [hlexemes]

theorem WalkEnds.elsewhere {c d : Cursor} {error : Option LexError} (h : WalkEnds c error)
    (hd : d.rest = c.rest) :
    ∃ error', WalkEnds d error' ∧ error'.map LexError.fault = error.map LexError.fault := by
  cases h with
  | text h => exact ⟨none, .text (hd.trans h), rfl⟩
  | fault h =>
    rw [← hd] at h
    exact ⟨_, .fault h, rfl⟩

/-! ## Words -/

namespace Buffer

variable {b b' b'' : Buffer}

/-- The words of a buffer are the meaningful lexemes, and the fault if there is one. -/
theorem words_of_items {ts : List Token} {error : Option LexError}
    (h : b.items = walkItems ts error) :
    b.words = (meaningful (ts.map Token.lexeme)).map .ok ++
      (error.map LexError.fault).toList.map .error := by
  have htokens : ∀ ts : List Token,
      ((ts.map Except.ok).filter fun i => !Filter.leavesOut Filter.trivia i).map
      Item.content = (meaningful (ts.map Token.lexeme)).map .ok := by
    intro ts
    induction ts with
    | nil => rfl
    | cons t ts ih =>
      simp only [List.map_cons, meaningful, List.filter_cons, Filter.leavesOut_trivia] at ih ⊢
      cases ht : t.lexeme.kind.isTrivia <;> simp [Token.kind, ht, ih, Item.content]
  rw [words, Filter.toList_eq, Filter.remaining_ofItems, h, walkItems, List.filter_append,
    List.map_append, htokens]
  cases error <;> rfl

/-- Two texts joined by a line feed, the first without a lexical fault, have the words of both. -/
theorem words_joined {ls : List Lexeme} (hls : b.words = ls.map .ok)
    (htext : b''.text = b.text ++ "\n" ++ b'.text) : b''.words = b.words ++ b'.words := by
  obtain ⟨ts, c, error, hwalk, hends, hitems⟩ := b.exists_walk_items
  obtain ⟨us, d, error', hwalk', hends', hitems'⟩ := b'.exists_walk_items
  have hwords := words_of_items hitems
  have hnone : error = none := by
    cases error with
    | none => rfl
    | some e =>
      have hmem : Except.error e.fault ∈ b.words := by
        rw [hwords]
        exact List.mem_append_right _ (List.mem_singleton.2 rfl)
      simp [hls] at hmem
  subst hnone
  obtain ⟨hend⟩ := hends
  have hchars : (Cursor.start b'').rest =
      (Cursor.start b).rest ++ '\n' :: (Cursor.start b').rest := by
    simp [Cursor.start, chars, htext]
  obtain ⟨ts', d₁, hfirst, hd₁, hlexemes⟩ := hwalk.joined hend hchars
  obtain ⟨us', d₂, hsecond, hd₂, hlexemes'⟩ := hwalk'.elsewhere hd₁
  obtain ⟨error'', hends'', hfault⟩ := hends'.elsewhere hd₂
  have hitems'' : b''.items = walkItems (ts' ++ us') error'' :=
    Tokenizer.items_of_walk (hfirst.append hsecond) hends'' rfl rfl (Nat.le_refl b''.chars.length)
  rw [words_of_items hitems'', hwords, words_of_items hitems', hfault]
  simp only [meaningful, List.map_append, List.filter_append] at hlexemes ⊢
  rw [hlexemes, hlexemes']
  simp

end Buffer

end Rill
