import RegisterMachine.Text.Blank

/-! # Numerals

Numbers are printed in lower-case hexadecimal or in decimal without a sign, and read in either
base with an optional plus sign, any number of leading zeros, and digits of either case.  A
reader takes the bound that the value must stay below, so that a numeral which is too large is
refused like one that is malformed. -/

namespace RegisterMachine
namespace Text

/-! ## Printing -/

/-- The decimal digits of a number. -/
def decimal (n : Nat) : Text :=
  Nat.toDigits 10 n

/-- The hexadecimal digits of a number. -/
def hex (n : Nat) : Text :=
  Nat.toDigits 16 n

/-- The least number of digits in which words and addresses are shown. -/
def hexWidth : Nat := 6

/-- A word or an address as it is shown everywhere: in hexadecimal, with zeros in front up to
`hexWidth` digits.  A larger number is shown in full. -/
def paddedHex (n : Nat) : Text :=
  (hex n).leftpad hexWidth '0'

theorem length_paddedHex (n : Nat) : (paddedHex n).length = max hexWidth (hex n).length := by
  simp only [paddedHex, List.leftpad, List.length_append, List.length_replicate]
  omega

/-! ## Reading -/

/-- Counts and indices are read as 64-bit numbers: what does not fit is no number. -/
def countLimit : Nat := UInt64.size

/-- The value of a digit in any base up to sixteen. -/
def digitValue (c : Char) : Option Nat :=
  if '0'.toNat ≤ c.toNat ∧ c.toNat ≤ '9'.toNat then some (c.toNat - '0'.toNat)
  else if 'a'.toNat ≤ c.toNat ∧ c.toNat ≤ 'f'.toNat then some (c.toNat - 'a'.toNat + 10)
  else if 'A'.toNat ≤ c.toNat ∧ c.toNat ≤ 'F'.toNat then some (c.toNat - 'A'.toNat + 10)
  else none

/-- The value of a digit of the given base. -/
def digit? (base : Nat) (c : Char) : Option Nat :=
  (digitValue c).filter (· < base)

/-- The number that a nonempty run of digits stands for. -/
def natural? (base : Nat) (t : Text) : Option Nat :=
  if t.isEmpty then none
  else t.foldlM (fun value c => (digit? base c).map (base * value + ·)) 0

/-- A text without the plus sign it may start with. -/
def dropPlus : Text → Text
  | '+' :: rest => rest
  | t => t

/-- The number below `limit` that a numeral stands for: digits of the base, with or without a
plus sign before them. -/
def number? (base limit : Nat) (t : Text) : Option Nat :=
  (natural? base (dropPlus t)).filter (· < limit)

end Text
end RegisterMachine
