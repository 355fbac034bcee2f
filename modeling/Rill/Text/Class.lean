import Rill.Text.Alphabetic
import Rill.Text.Numeric
import Rill.Text.Hidden

/-!
# Character classes

The classes that tokens and quoted text are defined by. Each class has a rule for ASCII and a table
of intervals for the rest, so a question about an ASCII character never reads a table.

* `isAlphabetic` : the Unicode property Alphabetic;
* `isNumeric` : the general categories Nd, Nl and No;
* `isBlank` : the Unicode property White_Space;
* `isHidden` : characters that have no glyph of their own, the ASCII space apart;
* `isExtending` : the Unicode property Grapheme_Extend, letters apart.
-/

namespace Rill.Text

/-- Whether `n` lies in one of the closed intervals, which stand in increasing order. -/
def inRanges : List (Nat × Nat) → Nat → Bool
  | [], _ => false
  | (lo, hi) :: rest, n => if n < lo then false else n ≤ hi || inRanges rest n

/-- An ASCII letter. -/
def isLatin (c : Char) : Bool :=
  ('a' ≤ c && c ≤ 'z') || ('A' ≤ c && c ≤ 'Z')

/-- An ASCII digit. -/
def isDigit (c : Char) : Bool :=
  '0' ≤ c && c ≤ '9'

/-- A letter of any script. -/
def isAlphabetic (c : Char) : Bool :=
  if c.toNat < 0x80 then isLatin c else inRanges alphabeticRanges c.toNat

/-- A number character of any script. -/
def isNumeric (c : Char) : Bool :=
  if c.toNat < 0x80 then isDigit c else inRanges numericRanges c.toNat

/-- A letter or a number character. -/
def isAlphanumeric (c : Char) : Bool :=
  isAlphabetic c || isNumeric c

/-- Closed intervals of blank code points from U+0080 on. -/
def blankRanges : List (Nat × Nat) :=
  [(0x85, 0x85), (0xA0, 0xA0), (0x1680, 0x1680), (0x2000, 0x200A), (0x2028, 0x2029),
    (0x202F, 0x202F),
   (0x205F, 0x205F), (0x3000, 0x3000)]

/-- A blank of any kind, line breaks included. -/
def isBlank (c : Char) : Bool :=
  if c.toNat < 0x80 then c.toNat == 0x20 || (9 ≤ c.toNat && c.toNat ≤ 13)
  else inRanges blankRanges c.toNat

/-- A character without a glyph : control, format, private, unassigned, a filler, or a separator
other than the ASCII space. -/
def isHidden (c : Char) : Bool :=
  if c.toNat < 0x80 then c.toNat < 0x20 || c.toNat == 0x7F else inRanges hiddenRanges c.toNat

/-- A character that joins the one before it. -/
def isExtending (c : Char) : Bool :=
  if c.toNat < 0x80 then false else inRanges extendingRanges c.toNat

end Rill.Text
