import RegisterMachine.Diagnostic
import RegisterMachine.Instruction
import RegisterMachine.Text.Split

/-! # Encoded programs

A program is the list of words that memory starts with.  As a text it has one word a line, in
hexadecimal.  Reading is more generous than printing: blank lines and blanks around a word are
skipped, digits may be of either case, and a plus sign may stand before them.  Skipped lines
still count, so that an error names the line of the text it is on. -/

namespace RegisterMachine

/-- The words that memory starts with, from address zero. -/
abbrev Program := List Word

namespace Program

/-- Why a program cannot be used. -/
inductive Error where
  /-- A line of the text is not a word. -/
  | malformedWord (line : Nat) (text : Text)
  /-- The program does not fit in memory. -/
  | tooLong (length capacity : Nat)
deriving DecidableEq, Repr

/-- The wording of a program error. -/
def Error.diagnostic : Error → Diagnostic
  | malformedWord line text =>
    { code := "vm::malformed_word"
      message := s!"Malformed instruction word `{String.ofList text}` on line {line}"
      help := some "encoded programs hold one hex word per line" }
  | tooLong length capacity =>
    { code := "vm::program_too_long"
      message := s!"Program is too long for memory ({length} words, capacity {capacity})"
      help := some "split the program or shrink its data section" }

/-- The word that a trimmed line stands for. -/
def word? (t : Text) : Option Word :=
  (Text.number? 16 UInt32.size t).map UInt32.ofNat

/-- Reads lines of an encoded program, the first of which has the given number. -/
def readLines : Nat → List Text → Except Error Program
  | _, [] => .ok []
  | number, line :: rest =>
    if (Text.trim line).isEmpty then readLines (number + 1) rest
    else
      match word? (Text.trim line) with
      | none => .error (.malformedWord number (Text.trim line))
      | some w => (readLines (number + 1) rest).map (w :: ·)

/-- Reads an encoded program. -/
def read (t : Text) : Except Error Program :=
  readLines 1 (Text.lines t)

/-- The lines of an encoded program. -/
def lines (p : Program) : List Text :=
  p.map Word.text

/-- An encoded program as one text, each line ended by a line feed. -/
def print (p : Program) : Text :=
  (lines p).flatMap (· ++ ['\n'])

end Program
end RegisterMachine
