import RegisterMachine.Cli.Path
import RegisterMachine.Text.Numeral

/-! # Status lines

While it works the command line says what it is doing, in lines of their own beside its output,
unless it is told to write as little as possible. -/

namespace RegisterMachine
namespace Cli

/-- Something the command line says about its work. -/
inductive Status where
  /-- A source is about to be assembled. -/
  | assembling (input : Path)
  /-- It has been assembled. -/
  | assembled (words labels : Nat)
  /-- The program has been written. -/
  | saved (output : Path)
  /-- A program is about to be run. -/
  | running (program : Path)
  /-- A program is about to be run in a session. -/
  | debugging (program : Path)
  /-- The run has ended without a fault. -/
  | completed (program : Path)
deriving DecidableEq, Repr

namespace Status

/-- The word that a status line starts with. -/
def heading : Status → Text
  | assembling _ => "Assembling".toList
  | assembled _ _ => "Finished".toList
  | saved _ => "Saved".toList
  | running _ => "Running".toList
  | debugging _ => "Debugging".toList
  | completed _ => "Completed".toList

/-- What follows that word. -/
def detail : Status → Text
  | assembling p | saved p | running p | debugging p | completed p => p.target
  | assembled words labels =>
    Text.decimal words ++ " words, ".toList ++ Text.decimal labels ++ " labels".toList

/-- The width in which headings are aligned, at their ends. -/
def headingWidth : Nat := 12

/-- A status line. -/
def line (s : Status) : Text :=
  s.heading.leftpad headingWidth ' ' ++ ' ' :: s.detail

end Status

/-- How much the command line says. -/
structure Verbosity where
  /-- Whether it writes nothing but the output itself. -/
  minimal : Bool := false
deriving DecidableEq, Repr

namespace Verbosity

/-- Changes the setting, and gives the one before. -/
def replace (v : Verbosity) (minimal : Bool) : Bool × Verbosity :=
  (v.minimal, { minimal := minimal })

/-- What is left to say. -/
def keep (v : Verbosity) (status : List Status) : List Status :=
  if v.minimal then [] else status

end Verbosity
end Cli
end RegisterMachine
