import RegisterMachine.Text.Split

/-! # Source lines

A source is a list of lines.  Only the lines that say something count: blank lines and comments
are dropped and the rest are trimmed, but each keeps the number it had, by which errors name
it.  What is left falls into two sections at the first divider: the code, of instructions and
label definitions, and the data, of allocations. -/

namespace RegisterMachine
namespace Assembly

/-- A line of a source that says something. -/
structure Line where
  /-- Its position in the source, counted from one. -/
  number : Nat
  /-- Its text, trimmed. -/
  text : Text
deriving DecidableEq, Repr

/-- Starts a comment line. -/
def commentMark : Char := '#'

/-- Ends the name in a label definition, and divides a data directive. -/
def labelEnd : Char := ':'

/-- The line that divides code from data. -/
def divider : Text := ".data".toList

namespace Line

/-- Whether a trimmed text says something. -/
def counts (t : Text) : Bool :=
  !t.isEmpty && t.head? != some commentMark

/-- The lines of a source that say something. -/
def ofSource (source : List Text) : List Line :=
  ((source.zipIdx 1).map fun given => ⟨given.2, Text.trim given.1⟩).filter fun l => counts l.text

/-- The name that a label definition defines: all of the line but its end mark.  Other lines
define none. -/
def label? (l : Line) : Option Text :=
  if l.text.getLast? = some labelEnd then some l.text.dropLast else none

/-- Whether a line of the code is an instruction. -/
def isInstruction (l : Line) : Bool :=
  l.label?.isNone

/-- Whether a line is the divider. -/
def isDivider (l : Line) : Bool :=
  l.text == divider

theorem counts_iff {t : Text} : counts t = true ↔ t ≠ [] ∧ t.head? ≠ some commentMark := by
  simp [counts]

/-- An instruction is a line that does not end with the mark of a label. -/
theorem isInstruction_iff {l : Line} :
    l.isInstruction = true ↔ l.text.getLast? ≠ some labelEnd := by
  by_cases hend : l.text.getLast? = some labelEnd
  · simp [isInstruction, label?, hend]
  · simp [isInstruction, label?, hend]

end Line

/-- The two sections of a source. -/
structure Sections where
  /-- The lines before the first divider. -/
  code : List Line
  /-- The lines after it. -/
  data : List Line
deriving DecidableEq, Repr

namespace Sections

/-- Divides lines at the first divider; without one, all of them are code. -/
def ofLines (ls : List Line) : Sections where
  code := ls.takeWhile fun l => !l.isDivider
  data := (ls.dropWhile fun l => !l.isDivider).tail

/-- The sections of a source. -/
def ofSource (source : List Text) : Sections :=
  ofLines (Line.ofSource source)

/-- The instructions of the code, one for each word of the program. -/
def instructions (s : Sections) : List Line :=
  s.code.filter Line.isInstruction

/-- **The instructions are the lines of the code that do not end with the mark of a label**, in the
order in which they stand there. -/
theorem instructions_eq (s : Sections) :
    s.instructions = s.code.filter fun l => l.text.getLast? ≠ some labelEnd := by
  refine List.filter_congr fun l _ => ?_
  rw [Bool.eq_iff_iff, Line.isInstruction_iff, decide_eq_true_iff]

theorem mem_instructions_iff {s : Sections} {l : Line} :
    l ∈ s.instructions ↔ l ∈ s.code ∧ l.text.getLast? ≠ some labelEnd := by
  rw [instructions_eq, List.mem_filter, decide_eq_true_iff]

end Sections

end Assembly
end RegisterMachine
