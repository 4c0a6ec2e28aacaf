import RegisterMachine.Diagnostic
import RegisterMachine.Word

/-! # Faults

Why an instruction cannot be carried out, and where.  A *trap* is a fault together with the
address of the instruction that caused it. -/

namespace RegisterMachine

/-- Why an instruction cannot be fetched or executed. -/
inductive Fault where
  /-- The instruction pointer is past the end of memory. -/
  | pointerOutOfRange (ip : Nat)
  /-- An operand names a register that the machine does not have. -/
  | invalidRegister (index : UInt8)
  /-- A register that should hold an address holds something else. -/
  | invalidAddress (address : Word)
  /-- No operation has this code. -/
  | unknownOpcode (code : UInt8)
  /-- A breakpoint that no debugger has set. -/
  | unexpectedBreakpoint
deriving DecidableEq, Repr

/-- A fault and where it happened. -/
structure Trap where
  /-- The address of the instruction at fault. -/
  address : Nat
  /-- What went wrong there. -/
  fault : Fault
deriving DecidableEq, Repr

namespace Fault

/-- The name of a fault. -/
def code : Fault → String
  | pointerOutOfRange _ => "vm::ip_out_of_bounds"
  | invalidRegister _ => "vm::invalid_register"
  | invalidAddress _ => "vm::invalid_address"
  | unknownOpcode _ => "vm::unknown_opcode"
  | unexpectedBreakpoint => "vm::unexpected_breakpoint"

/-- What a fault says. -/
def message : Fault → String
  | pointerOutOfRange ip =>
    let pointer := String.ofList (Text.paddedHex ip)
    let limit := String.ofList (Text.paddedHex memorySize)
    s!"Program counter {pointer} out of range 0..{limit}"
  | invalidRegister index => s!"Invalid register {String.ofList (Text.paddedHex index.toNat)}"
  | invalidAddress address => s!"Invalid address {String.ofList address.text}"
  | unknownOpcode code => s!"Unknown op {String.ofList (Text.paddedHex code.toNat)}"
  | unexpectedBreakpoint => "Breakpoint outside of debugger"

/-- What may have led to a fault. -/
def help : Fault → Option String
  | pointerOutOfRange _ => some "the program may be missing a `hlt`"
  | unknownOpcode _ => some "the program may have jumped into its data"
  | _ => none

end Fault

/-- The wording of a trap: that of its fault, and where it is. -/
def Trap.diagnostic (t : Trap) : Diagnostic where
  code := t.fault.code
  message := s!"{t.fault.message} at {String.ofList (Text.paddedHex t.address)}"
  help := t.fault.help

end RegisterMachine
