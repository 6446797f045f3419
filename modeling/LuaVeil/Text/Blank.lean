/-
# Blanks

Three sets of blank characters occur in the processing of scripts:

* `isSeparator`, the blanks that separate tokens on one line;
* `isAsciiBlank`, the same set together with the line feed;
* `isBlank`, every character with the Unicode property `White_Space`.

`trimStart`, `trimEnd` and `trim` take characters of the last set off the ends
of a text. A vertical tab is in the last set only.
-/
import LuaVeil.Text.Basic

namespace LuaVeil.Text

/-- Space, tab, form feed and carriage return. -/
def isSeparator (c : Char) : Bool :=
  c == ' ' || c == '\t' || c == '\x0c' || c == '\r'

/-- The separators and the line feed. -/
def isAsciiBlank (c : Char) : Bool :=
  isSeparator c || c == '\n'

/-- The code point ranges of the Unicode property `White_Space`. -/
def blankRanges : List (Nat × Nat) :=
  [(0x09, 0x0D), (0x20, 0x20), (0x85, 0x85), (0xA0, 0xA0), (0x1680, 0x1680), (0x2000, 0x200A),
   (0x2028, 0x2029), (0x202F, 0x202F), (0x205F, 0x205F), (0x3000, 0x3000)]

/-- Whether a character has the Unicode property `White_Space`. -/
def isBlank (c : Char) : Bool :=
  blankRanges.any fun (low, high) => low ≤ c.toNat && c.toNat ≤ high

/-- A text without the blanks at its start. -/
def trimStart (t : Text) : Text :=
  t.dropWhile isBlank

/-- A text without the blanks at its end. -/
def trimEnd (t : Text) : Text :=
  (t.reverse.dropWhile isBlank).reverse

/-- A text without the blanks at its two ends. -/
def trim (t : Text) : Text :=
  trimEnd (trimStart t)

end LuaVeil.Text
