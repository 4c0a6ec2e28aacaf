import RegisterMachine.Text.Numeral

/-! # Words and sizes

The machine computes with 32-bit words, of which it has 256 in memory and 4 in registers. -/

namespace RegisterMachine

/-- A word of the machine. -/
abbrev Word := UInt32

/-- A word as it is shown everywhere. -/
def Word.text (w : Word) : Text :=
  Text.paddedHex w.toNat

/-- The number of words in memory. -/
abbrev memorySize : Nat := 256

/-- The number of registers. -/
abbrev registerCount : Nat := 4

end RegisterMachine
