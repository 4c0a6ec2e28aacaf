import RegisterMachine.Machine.Basic

/-! # Dumps

A dump shows the instruction pointer, the registers, and memory in rows, from the first row up
to the last one that has a word other than zero. -/

namespace RegisterMachine
namespace Machine

/-- The number of words in a row. -/
def rowLength : Nat := 4

/-- The number of words up to the last one that is not zero. -/
def usedLength (m : Machine) : Nat :=
  (m.memory.toList.reverse.dropWhile (· == 0)).length

/-- The number of rows that hold all words other than zero. -/
def rowCount (m : Machine) : Nat :=
  (m.usedLength + rowLength - 1) / rowLength

/-- A row of memory: the address of its first word, then its words. -/
def row (m : Machine) (index : Nat) : Text :=
  Text.paddedHex (rowLength * index) ++ ": ".toList ++
    ((m.memory.toList.drop (rowLength * index)).take rowLength).flatMap fun w =>
      "  ".toList ++ w.text

/-- The line of a register. -/
def registerLine (m : Machine) (index : Fin registerCount) : Text :=
  "R".toList ++ Text.paddedHex index ++ " = ".toList ++ (m.register index).text

/-- The lines of a dump. -/
def dump (m : Machine) : List Text :=
  ("IP      = ".toList ++ Text.paddedHex m.ip) ::
    ((List.finRange registerCount).map m.registerLine ++ (List.range m.rowCount).map m.row)

/-- Writes a dump to the transcript. -/
def writeDump (m : Machine) : Machine :=
  { m with transcript := m.transcript.report m.dump }

end Machine
end RegisterMachine
