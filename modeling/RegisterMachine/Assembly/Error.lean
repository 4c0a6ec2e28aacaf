import RegisterMachine.Diagnostic
import RegisterMachine.Assembly.Line
import RegisterMachine.Text.Numeral

/-! # Assembly errors

An error is a line of the source together with the rule it violates. -/

namespace RegisterMachine
namespace Assembly

/-- A rule of the source language that a line violates. -/
inductive Violation where
  /-- The label has been defined before. -/
  | duplicateLabel (name : Text)
  /-- No operation has this mnemonic. -/
  | unknownOpcode (mnemonic : Text)
  /-- The operation is kept for the debugger. -/
  | reservedOpcode (mnemonic : Text)
  /-- The operation takes another number of operands. -/
  | wrongOperandCount (mnemonic : Text) (expected found : Nat)
  /-- The operand is not written as a register. -/
  | malformedRegister (token : Text)
  /-- The machine has no such register. -/
  | invalidRegister (token : Text)
  /-- The label is not defined. -/
  | unknownLabel (name : Text)
  /-- The operand is no value, or a label whose address is none. -/
  | invalidValue (token : Text)
  /-- The line of the data section is no allocation. -/
  | malformedAllocation
  /-- The allocation does not fit in memory. -/
  | outOfMemory (name : Text) (base count : Nat)
deriving DecidableEq, Repr

/-- The wording of a violation. -/
def Violation.diagnostic : Violation → Diagnostic
  | duplicateLabel name =>
    { code := "asm::duplicate_label"
      message := s!"Duplicate label `{String.ofList name}`"
      help := some "labels are only allowed once per file, in code and data alike" }
  | unknownOpcode mnemonic =>
    { code := "asm::unknown_opcode"
      message := s!"Unknown operation `{String.ofList mnemonic}`"
      help := some "check the list of available operations" }
  | reservedOpcode mnemonic =>
    { code := "asm::reserved_opcode"
      message := s!"Operation `{String.ofList mnemonic}` is reserved for the debugger"
      help := some "check the list of available operations" }
  | wrongOperandCount mnemonic expected found =>
    { code := "asm::operand_count"
      message := s!"Wrong number of operands for `{String.ofList mnemonic}` " ++
        s!"(expected {expected}, found {found})"
      help := some "check the operands for this instruction" }
  | malformedRegister token =>
    { code := "asm::malformed_register"
      message := s!"Malformed register `{String.ofList token}`"
      help := some "registers are written R0 to R3" }
  | invalidRegister token =>
    { code := "asm::invalid_register"
      message := s!"Illegal register `{String.ofList token}`"
      help := some "registers are written R0 to R3" }
  | unknownLabel name =>
    { code := "asm::unknown_label"
      message := s!"Unknown label `{String.ofList name}`"
      help := some "labels are defined as `name:` or in the `.data` section" }
  | invalidValue token =>
    { code := "asm::invalid_value"
      message := s!"Invalid value `{String.ofList token}`"
      help := some "values are decimal integers from 0 to 255, or `@label`" }
  | malformedAllocation =>
    { code := "asm::malformed_allocation"
      message := "Invalid allocation directive"
      help := some "data directives are written `name: count`" }
  | outOfMemory name base count =>
    { code := "asm::out_of_memory"
      message := s!"Allocation `{String.ofList name}` requires too much memory " ++
        s!"({count} words at 0x{String.ofList (Text.hex base)})"
      help := some "code and data must fit in 256 words" }

/-- A line at which assembly stops. -/
structure Error where
  /-- The line at fault. -/
  line : Line
  /-- The rule it violates. -/
  violation : Violation
deriving DecidableEq, Repr

/-- The wording of an assembly error: that of the violation, and where it is. -/
def Error.diagnostic (e : Error) : Diagnostic :=
  let base := e.violation.diagnostic
  let line := e.line.number
  let text := String.ofList e.line.text
  { base with message := s!"{base.message} (line {line}: `{text}`)" }

end Assembly
end RegisterMachine
