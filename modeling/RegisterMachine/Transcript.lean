import RegisterMachine.Word

/-! # Transcripts

Everything a machine writes goes into its transcript, in order.  Entries keep apart who wrote
them: what the program printed, what was reported about the machine, and the prompts at which a
debugger asked for a command.  Prompts are always recorded, and shown only where somebody sees
them, so that two sessions can be compared whether their prompts were shown or not. -/

namespace RegisterMachine

/-- Something written while a machine ran. -/
inductive Entry where
  /-- A word that the program printed. -/
  | printed (w : Word)
  /-- A line reported about the machine. -/
  | line (text : Text)
  /-- A prompt for a command at an address. -/
  | prompt (address : Nat)
deriving DecidableEq, Repr

namespace Entry

/-- The keys that a prompt offers. -/
def promptKeys : Text := "bcdmnqrs".toList

/-- An entry as text, with or without the prompts. -/
def text (prompts : Bool) : Entry → Text
  | printed w => w.text ++ ['\n']
  | line t => t ++ ['\n']
  | prompt address =>
    if prompts then Text.paddedHex address ++ " [".toList ++ promptKeys ++ "]> ".toList else []

/-- The word that the program printed, if it is that kind of entry. -/
def printed? : Entry → Option Word
  | printed w => some w
  | _ => none

end Entry

/-- What was written, the latest entry first. -/
abbrev Transcript := List Entry

namespace Transcript

/-- The entries in the order in which they were written. -/
def entries (t : Transcript) : List Entry :=
  t.reverse

/-- A transcript as text, with or without the prompts. -/
def text (prompts : Bool) (t : Transcript) : Text :=
  (entries t).flatMap (Entry.text prompts)

/-- The words that the program printed. -/
def printed (t : Transcript) : List Word :=
  (entries t).filterMap Entry.printed?

/-- Adds reported lines. -/
def report (t : Transcript) (lines : List Text) : Transcript :=
  (lines.map Entry.line).reverse ++ t

theorem entries_cons (t : Transcript) (e : Entry) : entries (e :: t) = entries t ++ [e] := by
  simp [entries]

theorem text_cons (prompts : Bool) (t : Transcript) (e : Entry) :
    text prompts (e :: t) = text prompts t ++ e.text prompts := by
  simp [text, entries_cons]

theorem printed_cons (t : Transcript) (e : Entry) :
    printed (e :: t) = printed t ++ e.printed?.toList := by
  cases h : e.printed? <;> simp [printed, entries_cons, h]

theorem entries_report (t : Transcript) (lines : List Text) :
    entries (report t lines) = entries t ++ lines.map Entry.line := by
  simp [entries, report]

theorem printed_report (t : Transcript) (lines : List Text) :
    printed (report t lines) = printed t := by
  simp [printed, entries_report, Function.comp_def, Entry.printed?]

end Transcript
end RegisterMachine
