import RegisterMachine.Text.Split
import RegisterMachine.Text.Utf8

/-! # Scripts

A script is what a session will be told: the texts that its reads will give, one after the
other, not yet trimmed.  When it is used up, every further read meets its end.

Given as one text, a script is cut at semicolons and line ends.  Piped, it comes line by line
as bytes, each line with its end, and ends before the first line that is not text. -/

namespace RegisterMachine

/-- The texts that are still to be read. -/
abbrev Script := List Text

namespace Script

/-- Whether a character ends a command in a text of commands. -/
def endsCommand (c : Char) : Bool :=
  c == ';' || c == '\n'

/-- The script in a text of commands. -/
def ofText (t : Text) : Script :=
  Text.entries endsCommand t

/-- The script in piped bytes. -/
def ofBytes (bytes : ByteArray) : Script :=
  let lines := (Text.segments (· == '\n'.toUInt8) bytes.data.toList).map fun line =>
    Text.decode? ⟨line.toArray⟩
  (lines.takeWhile Option.isSome).filterMap id

/-- Reads once: the next text, if there is one, and what is left. -/
def next : Script → Option Text × Script
  | [] => (none, [])
  | t :: rest => (some t, rest)

end Script
end RegisterMachine
