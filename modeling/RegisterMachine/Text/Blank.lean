/-! # Text and its blank characters

Texts are lists of characters: every reader of the library (source lines, encoded programs,
commands, arguments) goes through them from the left, and every printer builds them the same
way.  This module fixes which characters are *blank*, the only ones that trimming removes and
that separate words.

The class is the Unicode property `White_Space`.  It is wider than the blank, tab and line
ends of ASCII (it has the no-break space and the ideographic space), and narrower than "looks
empty": the zero-width space and the byte order mark are ordinary characters. -/

namespace RegisterMachine

/-- A text, as the characters it is made of. -/
abbrev Text := List Char

namespace Text

/-- The code points of the `White_Space` property, as closed intervals in ascending order. -/
def blankRanges : List (Nat × Nat) :=
  [(0x0009, 0x000D), (0x0020, 0x0020), (0x0085, 0x0085), (0x00A0, 0x00A0), (0x1680, 0x1680),
   (0x2000, 0x200A), (0x2028, 0x2029), (0x202F, 0x202F), (0x205F, 0x205F), (0x3000, 0x3000)]

/-- Whether a character is blank. -/
def isBlank (c : Char) : Bool :=
  blankRanges.any fun range => range.1 ≤ c.toNat && c.toNat ≤ range.2

end Text
end RegisterMachine
