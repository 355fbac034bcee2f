import Rill.Proofs.Pieces

/-!
# Literals and their values

Inside a literal a character is written as itself or as an escape (`Encoding`). A text is cut into
the one string literal with value `s` exactly if it is a double quote, an encoding of each character
of `s` in turn and a double quote, and likewise for character literals (`Buffer.literals_decode`).
So a value has as many literals as its characters have encodings, and no literal has two values.

`Scan.stringBody_eq_closed_iff` and `Scan.scanChar_eq_lexeme_iff` say this of what follows the
opening quote, with any text after the closing one.
-/

namespace Rill

namespace Scan

/-- What a character may be written as in a literal : an escape letter that stands for it, after a
backslash, or itself if it is one of those that may stand for themselves. -/
inductive Encoding (plain : Char → Prop) (c : Char) : List Char → Prop
  | escape {e : Char} (h : unescape? e = some c) : Encoding plain c ['\\', e]
  | itself (h : plain c) : Encoding plain c [c]

/-- The characters that stand for themselves in a string literal. -/
def PlainInString (c : Char) : Prop :=
  c ≠ '\\' ∧ c ≠ '"'

/-- The characters that stand for themselves in a character literal. -/
def PlainInChar (c : Char) : Prop :=
  c ≠ '\\' ∧ c ≠ '\'' ∧ c ≠ '\n' ∧ c ≠ '\r'

/-! ## String literals -/

theorem stringBody_escape {e c : Char} (h : unescape? e = some c) (cs : List Char) :
    stringBody ('\\' :: e :: cs) = (stringBody cs).push c 2 := by
  rw [stringBody, h]

/-- A character that is encoded at the start of a string's inside is the first of its value. -/
theorem Encoding.stringBody {c : Char} {encoding : List Char}
    (h : Encoding PlainInString c encoding) (cs : List Char) :
    stringBody (encoding ++ cs) = (stringBody cs).push c encoding.length := by
  cases h with
  | escape he => exact stringBody_escape he cs
  | itself hc => exact stringBody_cons hc.2 hc.1 cs

/-- The inside of a string literal is an encoding of each character of its value, up to the
closing quote. -/
theorem stringBody_eq_closed_iff {cs value : List Char} {n : Nat} :
    stringBody cs = .closed value n ↔
      ∃ encodings rest, List.Forall₂ (Encoding PlainInString) value encodings ∧
      cs = encodings.flatten ++ '"' :: rest ∧ n = encodings.flatten.length + 1 := by
  constructor
  · intro h
    fun_induction Scan.stringBody cs generalizing value n with
    | case1 | case3 | case5 => cases h
    | case2 rest =>
      obtain ⟨rfl, rfl⟩ := Body.closed.inj h
      exact ⟨[], rest, .nil, rfl, rfl⟩
    | case4 e cs c he ih =>
      obtain ⟨value, m, hbody, rfl, rfl⟩ := Body.exists_of_push h
      obtain ⟨encodings, rest, hencodings, rfl, rfl⟩ := ih hbody
      exact ⟨['\\', e] :: encodings, rest, .cons (.escape he) hencodings, rfl, by simp; omega⟩
    | case6 c cs hquote hlast hslash ih =>
      have hc := ne_backslash hlast hslash
      obtain ⟨value, m, hbody, rfl, rfl⟩ := Body.exists_of_push h
      obtain ⟨encodings, rest, hencodings, rfl, rfl⟩ := ih hbody
      exact ⟨[c] :: encodings, rest, .cons (.itself ⟨hc, hquote⟩) hencodings, rfl, by simp; omega⟩
  · rintro ⟨encodings, rest, hencodings, rfl, rfl⟩
    induction hencodings with
    | nil => rfl
    | @cons c encoding value encodings hencoding _ ih =>
      rw [List.flatten_cons, List.append_assoc, hencoding.stringBody, ih, Body.push,
        List.length_append, Nat.add_assoc]

/-! ## Character literals -/

theorem scanChar_escape {e c : Char} (h : unescape? e = some c) (cs : List Char) :
    scanChar ('\\' :: e :: cs) = closeChar c 3 cs := by
  rw [scanChar, h]

theorem scanChar_cons {c : Char} (h : PlainInChar c) (cs : List Char) :
    scanChar (c :: cs) = closeChar c 2 cs := by
  obtain ⟨hslash, hquote, hline⟩ := h
  simp [scanChar, hslash, isLineEnd_eq_false_iff.2 hline]

/-- A character literal is an encoding of its value, up to the closing quote. -/
theorem scanChar_eq_lexeme_iff {cs : List Char} {l : Lexeme} {n : Nat} :
    scanChar cs = .lexeme l n ↔ ∃ c encoding rest, Encoding PlainInChar c encoding ∧
      cs = encoding ++ '\'' :: rest ∧ l = .char c ∧ n = encoding.length + 2 := by
  constructor
  · intro h
    unfold scanChar at h
    split at h
    · cases h
    · cases h
    · cases h
    next e cs =>
      split at h
      next c he =>
        obtain ⟨rfl, rfl, hhead⟩ := closeChar_eq_lexeme h
        obtain ⟨rest, rfl⟩ := List.head?_eq_some_iff.1 hhead
        exact ⟨c, _, rest, .escape he, rfl, rfl, rfl⟩
      next => cases h
    next c cs hquote hlast hslash =>
      split at h
      · cases h
      next hline =>
        obtain ⟨rfl, rfl, hhead⟩ := closeChar_eq_lexeme h
        obtain ⟨rest, rfl⟩ := List.head?_eq_some_iff.1 hhead
        have hplain : PlainInChar c :=
          ⟨fun hc => hslash _ _ hc rfl, hquote, isLineEnd_eq_false_iff.1 (by simpa using hline)⟩
        exact ⟨c, _, rest, .itself hplain, rfl, rfl, rfl⟩
  · rintro ⟨c, encoding, rest, hencoding, rfl, rfl, rfl⟩
    cases hencoding with
    | escape he => exact scanChar_escape he _
    | itself hc => exact scanChar_cons hc _

/-! ## Whole texts -/

theorem kind_wordLexeme (text : String) :
    (wordLexeme text).kind ≠ .string ∧ (wordLexeme text).kind ≠ .char := by
  unfold wordLexeme
  split <;> simp [Lexeme.kind]

end Scan

open Scan in
/-- Only a quote starts a literal of its kind. -/
theorem exists_quote_of_scan {cs : List Char} {l : Lexeme} {n : Nat}
    (h : scan cs = some (.lexeme l n)) :
    (l.kind = .string → ∃ inside, cs = '"' :: inside ∧ scanString inside = .lexeme l n) ∧
      (l.kind = .char → ∃ inside, cs = '\'' :: inside ∧ scanChar inside = .lexeme l n) := by
  cases cs with
  | nil => cases h
  | cons c cs =>
    have hcase := scan_cons_iff.1 h
    generalize hr : Scan.lexeme l n = r at hcase
    cases hcase with
    | string hc =>
      refine ⟨fun _ => ⟨cs, by rw [hc], rfl⟩, fun hl => ?_⟩
      unfold scanString at hr
      split at hr
      · obtain ⟨rfl, -⟩ := Scan.lexeme.inj hr
        cases hl
      · cases hr
    | char hc =>
      obtain ⟨value, rfl⟩ := scanChar_eq_lexeme hr.symm
      exact ⟨fun hl => (by cases hl), fun _ => ⟨cs, by rw [hc], rfl⟩⟩
    | word _ =>
      obtain ⟨rfl, -⟩ := Scan.lexeme.inj hr
      exact ⟨fun hl => absurd hl (kind_wordLexeme _).1, fun hl => absurd hl (kind_wordLexeme _).2⟩
    | number _ _ | lineFeed _ | carriageReturn _ | blank _ _ _ _ | lineComment _ _
    | blockComment _ _ _ | operator _ _ _ =>
      obtain ⟨rfl, -⟩ := Scan.lexeme.inj hr
      exact ⟨fun hl => (by cases hl), fun hl => (by cases hl)⟩
    | openComment _ _ _ | unrecognized _ _ => cases hr

open Scan in
theorem scan_eq_string_iff {cs : List Char} {s : String} :
    scan cs = some (.lexeme (.string s) cs.length) ↔
      ∃ encodings, List.Forall₂ (Encoding PlainInString) s.toList encodings ∧
        cs = '"' :: (encodings.flatten ++ ['"']) := by
  constructor
  · intro h
    obtain ⟨inside, rfl, hinside⟩ := (exists_quote_of_scan h).1 rfl
    unfold scanString at hinside
    split at hinside
    next value m hbody =>
      obtain ⟨hvalue, hm⟩ := Scan.lexeme.inj hinside
      obtain rfl : String.ofList value = s := by simpa using hvalue
      obtain ⟨encodings, rest, hencodings, rfl, rfl⟩ := stringBody_eq_closed_iff.1 hbody
      obtain rfl : rest = [] := by
        simp only [List.length_cons, List.length_append] at hm
        exact List.eq_nil_of_length_eq_zero (by omega)
      exact ⟨encodings, by rwa [String.toList_ofList], rfl⟩
    next => cases hinside
  · rintro ⟨encodings, hencodings, rfl⟩
    have hbody := stringBody_eq_closed_iff.2 ⟨encodings, [], hencodings, rfl, rfl⟩
    have hstring : scanString (encodings.flatten ++ ['"']) =
        .lexeme (.string s) ('"' :: (encodings.flatten ++ ['"'])).length := by
      rw [scanString, hbody]
      simp
      omega
    rw [← hstring]
    exact scan_cons_iff.2 (.string rfl)

open Scan in
theorem scan_eq_char_iff {cs : List Char} {c : Char} :
    scan cs = some (.lexeme (.char c) cs.length) ↔
      ∃ encoding, Encoding PlainInChar c encoding ∧ cs = '\'' :: (encoding ++ ['\'']) := by
  constructor
  · intro h
    obtain ⟨inside, rfl, hinside⟩ := (exists_quote_of_scan h).2 rfl
    obtain ⟨c', encoding, rest, hencoding, rfl, hc, hlength⟩ := scanChar_eq_lexeme_iff.1 hinside
    obtain rfl := Lexeme.char.inj hc
    obtain rfl : rest = [] := by
      simp only [List.length_cons, List.length_append] at hlength
      exact List.eq_nil_of_length_eq_zero (by omega)
    exact ⟨encoding, hencoding, rfl⟩
  · rintro ⟨encoding, hencoding, rfl⟩
    have hchar : scanChar (encoding ++ ['\'']) =
      .lexeme (.char c) ('\'' :: (encoding ++ ['\''])).length :=
      scanChar_eq_lexeme_iff.2 ⟨c, encoding, [], hencoding, rfl, rfl, by simp⟩
    rw [← hchar]
    exact scan_cons_iff.2 (.char rfl)

namespace Buffer

/-- A text is cut into a single token exactly if the lexeme of that token takes all of it. -/
theorem allTokens_eq_singleton_iff {b : Buffer} {l : Lexeme} :
    (∃ range, b.allTokens = .ok [⟨l, range⟩]) ↔ scan b.chars = some (.lexeme l b.chars.length) := by
  constructor
  · rintro ⟨range, h⟩
    obtain ⟨ts, c', error, hwalk, hends, hitems⟩ := b.exists_walk_items
    rw [allTokens, hitems, Item.collect_walkItems] at h
    cases hends with
    | fault => cases h
    | text hrest =>
      obtain rfl := Except.ok.inj h
      cases hwalk with
      | @step _ _ _ n _ hscan more =>
        cases more with
        | done =>
          have hle := (extent_of_scan hscan).2
          rw [Cursor.rest_advance, List.drop_eq_nil_iff] at hrest
          exact Nat.le_antisymm hle hrest ▸ hscan
  · intro h
    have hwalk := Walk.step (c := Cursor.start b) h (.done _)
    have hend : ((Cursor.start b).advance b.chars.length).rest = [] := by
      rw [Cursor.rest_advance]
      exact List.drop_length
    have hitems :=
      Tokenizer.items_of_walk hwalk (.text hend) (t := Tokenizer.start b) rfl rfl (Nat.le_refl _)
    exact ⟨_, (congrArg Item.collect hitems).trans (Item.collect_walkItems _ none)⟩

/-- Literals decode exactly. A text is the one string literal with value `s` if and only if it is an
encoding of each character of `s` between double quotes, and the one character literal with value
`c` if and only if it is an encoding of `c` between single quotes. -/
theorem literals_decode (b : Buffer) :
    (∀ s : String, (∃ range, b.allTokens = .ok [⟨.string s, range⟩]) ↔
      ∃ encodings, List.Forall₂ (Scan.Encoding Scan.PlainInString) s.toList encodings ∧
        b.text = "\"" ++ String.ofList encodings.flatten ++ "\"") ∧
    ∀ c : Char, (∃ range, b.allTokens = .ok [⟨.char c, range⟩]) ↔
      ∃ encoding, Scan.Encoding Scan.PlainInChar c encoding ∧
      b.text = "'" ++ String.ofList encoding ++ "'" := by
  have htext : ∀ (q : Char) (cs : List Char), b.chars = q :: (cs ++ [q]) ↔
      b.text = String.singleton q ++ String.ofList cs ++ String.singleton q := by
    intro q cs
    rw [← String.toList_inj]
    simp [chars]
  refine ⟨fun s => ?_, fun c => ?_⟩
  · rw [allTokens_eq_singleton_iff, scan_eq_string_iff]
    simp only [htext]
    rfl
  · rw [allTokens_eq_singleton_iff, scan_eq_char_iff]
    simp only [htext]
    rfl

end Buffer

end Rill
