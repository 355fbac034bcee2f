import Rill.Proofs.Stream
import Rill.Proofs.Tiling

/-!
# Words on lines of their own

Words that are lexemes when they stand alone, written one on a line, are cut into these lexemes
again : the tokens of `WrittenLexeme.lines ws` that carry meaning are the lexemes of `ws`
(`Tokenizer.items_lines`).
-/

namespace Rill

namespace Tokenizer

variable {t : Tokenizer} {l : Lexeme} {n : Nat}

theorem items_lexeme (hfailed : t.failed = false) (h : scan t.cursor.rest = some (.lexeme l n))
    (m : Nat) :
    t.items (m + 1) =
      .ok ⟨l, t.cursor.location, (t.cursor.advance n).location⟩ :: (t.after l n).items m := by
  simp [items, next_lexeme hfailed h]

theorem items_nil (h : t.cursor.rest = []) (m : Nat) : t.items m = [] := by
  cases m with
  | zero => rfl
  | succ m => simp [items, next_atEnd h]

end Tokenizer

/-- A lexeme and a text that is cut into it. -/
structure WrittenLexeme where
  lexeme : Lexeme
  text : List Char
  scans : scan text = some (.lexeme lexeme text.length)
  carries : lexeme.kind.isTrivia = false

/-- Words, one on a line. -/
def WrittenLexeme.lines (ws : List WrittenLexeme) : List Char :=
  ws.flatMap fun w => w.text ++ ['\n']

theorem Filter.leavesOut_trivia (t : Token) : leavesOut trivia (.ok t) = t.kind.isTrivia := by
  simp only [leavesOut, trivia]
  cases t.kind <;> rfl

theorem scan_lineFeed (cs : List Char) : scan ('\n' :: cs) = some (.lexeme (.lineBreak "\n") 1) :=
  scan_cons_iff.2 (.lineFeed rfl)

/-- A walk over words on lines gives their lexemes, and line breaks. -/
theorem Tokenizer.items_lines :
    ∀ (ws : List WrittenLexeme) {t : Tokenizer} {m : Nat}, t.failed = false →
    t.cursor.rest = WrittenLexeme.lines ws → t.cursor.rest.length ≤ m →
    ∃ ts : List Token,
      (t.items m).filter (fun i => !Filter.leavesOut Filter.trivia i) = ts.map .ok ∧
      ts.map Token.lexeme = ws.map WrittenLexeme.lexeme
  | [], t, m, _, hrest, _ => ⟨[], by simp [items_nil hrest], rfl⟩
  | w :: ws, t, m, hfailed, hrest, hm => by
    have hcons : WrittenLexeme.lines (w :: ws) = w.text ++ '\n' :: WrittenLexeme.lines ws := by
      simp [WrittenLexeme.lines]
    rw [hcons] at hrest
    have hscan : scan t.cursor.rest = some (.lexeme w.lexeme w.text.length) := by
      rw [hrest]
      exact scan_append_separator w.scans w.carries (.inr rfl) _
    have hpos := (extent_of_scan w.scans).1
    obtain ⟨t₁, ht₁⟩ : ∃ t₁, t₁ = t.after w.lexeme w.text.length := ⟨_, rfl⟩
    obtain ⟨t₂, ht₂⟩ : ∃ t₂, t₂ = t₁.after (.lineBreak "\n") 1 := ⟨_, rfl⟩
    have hfailed₁ : t₁.failed = false := by rw [ht₁, failed_after, hfailed]
    have hfailed₂ : t₂.failed = false := by rw [ht₂, failed_after, hfailed₁]
    have hrest₁ : t₁.cursor.rest = '\n' :: WrittenLexeme.lines ws := by simp [ht₁, hrest]
    have hrest₂ : t₂.cursor.rest = WrittenLexeme.lines ws := by simp [ht₂, hrest₁]
    have hscan₁ : scan t₁.cursor.rest = some (.lexeme (.lineBreak "\n") 1) := by
      rw [hrest₁]
      exact scan_lineFeed _
    simp only [Scan.extent] at hpos
    rw [hrest, List.length_append, List.length_cons] at hm
    obtain ⟨m, rfl⟩ : ∃ k, m = k + 2 := ⟨m - 2, by omega⟩
    obtain ⟨ts, hts, hlex⟩ := items_lines ws hfailed₂ hrest₂ (m := m) (by rw [hrest₂]; omega)
    refine ⟨⟨w.lexeme, t.cursor.location, (t.cursor.advance w.text.length).location⟩ :: ts, ?_,
      by simp [hlex]⟩
    rw [items_lexeme hfailed hscan, ← ht₁, items_lexeme hfailed₁ hscan₁, ← ht₂]
    have hkeep : ∀ range, Filter.leavesOut Filter.trivia (.ok ⟨w.lexeme, range⟩) = false := by
      intro range
      rw [Filter.leavesOut_trivia]
      exact w.carries
    have hdrop : ∀ range, Filter.leavesOut Filter.trivia (.ok ⟨.lineBreak "\n", range⟩) = true := by
      intro range
      rw [Filter.leavesOut_trivia]
      rfl
    simp [hkeep, hdrop, hts]

end Rill
