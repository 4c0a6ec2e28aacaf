import RegisterMachine.Program
import RegisterMachine.Assembly.Operand

/-! # Assembling

Assembling goes over a source three times: over the code for its labels, over the data for the
labels there, and over the instructions to compile them.  References may therefore point
forwards, and the first violation is the first in this order of passes, not of lines.  The
labels are known even when assembling fails: all that were defined before the line at fault. -/

namespace RegisterMachine
namespace Assembly

/-- Compiles an instruction. -/
def Line.compile (table : LabelTable) (l : Line) : Except Violation Word :=
  match Text.words l.text with
  | [] => .error (.unknownOpcode [])
  | name :: tokens =>
    match Opcode.ofMnemonic? name with
    | none => .error (.unknownOpcode name)
    | some o =>
      if o.isReserved then .error (.reservedOpcode name)
      else
        match operands table o tokens with
        | .error v => .error v
        | .ok (first, second) => .ok (Instruction.encode ⟨o.code, first, second⟩)

/-- Compiles instructions up to the first that is at fault. -/
def compile (table : LabelTable) : List Line → Except Error Program
  | [] => .ok []
  | l :: rest =>
    match l.compile table with
    | .error v => .error ⟨l, v⟩
    | .ok w => (compile table rest).map (w :: ·)

end Assembly

/-- What assembling a source gives. -/
structure Assembly where
  /-- The labels that were found. -/
  labels : Assembly.LabelTable
  /-- The program, or the line at which assembling stopped. -/
  program : Except Assembly.Error Program

namespace Assembly

/-- Assembles the two sections of a source. -/
def ofSections (s : Sections) : Assembly :=
  match LabelTable.addCode [] 0 s.code with
  | (table, some e) => ⟨table, .error e⟩
  | (table, none) =>
    match table.addData s.instructions.length s.data with
    | (table, some e) => ⟨table, .error e⟩
    | (table, none) => ⟨table, compile table s.instructions⟩

/-- Assembles a source, given as its lines. -/
def ofSource (source : List Text) : Assembly :=
  ofSections (Sections.ofSource source)

/-- Assembles a source, given as one text. -/
def ofText (source : Text) : Assembly :=
  ofSource (Text.lines source)

end Assembly

/-- An assembler, which is given one source after the other and remembers the labels of the last. -/
structure Assembler where
  /-- The labels that were found in the last source. -/
  labels : Assembly.LabelTable := []
deriving DecidableEq, Repr

/-- Assembles a source.  Its labels take the place of those that are remembered, whether it can be
assembled or not. -/
def Assembler.assemble (a : Assembler) (source : List Text) :
    Except Assembly.Error Program × Assembler :=
  let assembly := Assembly.ofSource source
  (assembly.program, { a with labels := assembly.labels })

end RegisterMachine
