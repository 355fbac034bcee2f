import Rill.Token.Basic

/-!
# Wordings tell faults apart

Quoting is injective : a quoted character is written as it is, as a backslash and a letter, or by
its code point, and these three can be told apart by their length. So the wording of a lexical fault
determines what the fault holds (`LexFault.eq_of_message`).
-/

namespace Rill

namespace Text

theorem digitChar_injective {m n : Nat} (hm : m < 16) (hn : n < 16)
    (h : m.digitChar = n.digitChar) :
    m = n := by
  have hall : ∀ m < 16, ∀ n < 16, m.digitChar = n.digitChar → m = n := by decide
  exact hall m hm n hn h

/-- Numbers with the same hexadecimal digits are equal. -/
theorem hexDigits_injective {m n : Nat} (h : hexDigits m = hexDigits n) : m = n := by
  induction m using Nat.strongRecOn generalizing n with
  | ind m ih =>
    have hlong : ∀ k c, (Nat.toDigits 16 k ++ [c]).length ≠ 1 := by
      intro k c
      have := Nat.length_toDigits_pos (b := 16) (n := k)
      simp only [List.length_append, List.length_singleton]
      omega
    rw [hexDigits, hexDigits, Nat.toDigits_eq_if (by decide),
      Nat.toDigits_eq_if (n := n) (by decide)] at h
    split at h <;> split at h
    · rename_i hm hn
      exact digitChar_injective hm hn (by simpa using h)
    · exact absurd (congrArg List.length h).symm (hlong _ _)
    · exact absurd (congrArg List.length h) (hlong _ _)
    · rename_i hm hn
      obtain ⟨hdiv, hmod⟩ := List.append_inj' h rfl
      have hmod := digitChar_injective (Nat.mod_lt _ (by decide)) (Nat.mod_lt _ (by decide))
        (by simpa using hmod)
      have hdiv := ih (m / 16) (by omega) hdiv
      omega

/-- The character that a letter after a backslash stands for. -/
def unquoted (e : Char) : Char :=
  if e = '0' then '\x00' else if e = 't' then '\t' else if e = 'r' then '\r'
  else if e = 'n' then '\n' else e

theorem quotedChar_cases (c : Char) :
    (∃ e, quotedChar '\'' c = ['\\', e] ∧ unquoted e = c) ∨
      quotedChar '\'' c = ['\\', 'u', '\x7b'] ++ hexDigits c.toNat ++ ['\x7d'] ∨
      quotedChar '\'' c = [c] := by
  unfold quotedChar
  split
  · exact .inl ⟨'0', rfl, by simp_all [unquoted]⟩
  split
  · exact .inl ⟨'t', rfl, by simp_all [unquoted]⟩
  split
  · exact .inl ⟨'r', rfl, by simp_all [unquoted]⟩
  split
  · exact .inl ⟨'n', rfl, by simp_all [unquoted]⟩
  split
  · rename_i h
    refine .inl ⟨c, rfl, ?_⟩
    obtain rfl | rfl : c = '\\' ∨ c = '\'' := by simpa using h
    · rfl
    · rfl
  split
  · exact .inr (.inl rfl)
  · exact .inr (.inr rfl)

/-- Characters that are quoted alike are equal. -/
theorem quoteChar_injective {c d : Char} (h : quoteChar c = quoteChar d) : c = d := by
  have hquoted : quotedChar '\'' c = quotedChar '\'' d := by
    simpa [quoteChar] using congrArg String.toList h
  obtain ⟨e, hc, hec⟩ | hc | hc := quotedChar_cases c <;>
    obtain ⟨e', hd, hed⟩ | hd | hd := quotedChar_cases d <;> rw [hc, hd] at hquoted
  · obtain rfl : e = e' := by simpa using hquoted
    exact hec.symm.trans hed
  · simpa using congrArg List.length hquoted
  · simp at hquoted
  · simpa using congrArg List.length hquoted
  · have hdigits : hexDigits c.toNat = hexDigits d.toNat := by simpa using hquoted
    exact Char.toNat_inj.1 (hexDigits_injective hdigits)
  · simp at hquoted
  · simp at hquoted
  · simp at hquoted
  · simpa using hquoted

end Text

/-- Faults of one variant with the same wording are equal. -/
theorem LexFault.eq_of_message {e e' : LexFault} (hvariant : e.ctorIdx = e'.ctorIdx)
    (hmessage : e.message = e'.message) : e = e' := by
  cases e <;> cases e' <;> simp [LexFault.ctorIdx] at hvariant
  case unknownEscape.unknownEscape c d =>
    have hsame : "unknown escape sequence '\\" ++ String.singleton c ++ "'" =
      "unknown escape sequence '\\" ++ String.singleton d ++ "'" := hmessage
    have hlist := congrArg String.toList hsame
    simp only [String.toList_append] at hlist
    have hcd := List.append_cancel_left (List.append_cancel_right hlist)
    simpa using hcd
  case unrecognized.unrecognized c d =>
    have hsame : "unrecognized character " ++ Text.quoteChar c =
      "unrecognized character " ++ Text.quoteChar d := hmessage
    have hlist := congrArg String.toList hsame
    simp only [String.toList_append] at hlist
    have hquoted := String.toList_injective (List.append_cancel_left hlist)
    rw [Text.quoteChar_injective hquoted]
  all_goals rfl

end Rill
