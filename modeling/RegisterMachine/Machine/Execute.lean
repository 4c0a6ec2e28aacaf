import RegisterMachine.Machine.Basic

/-! # Executing an instruction

An instruction is executed after the machine has moved past it, so its own address is the one
before the instruction pointer.  Operands are checked from left to right, registers before the
address that one of them holds; an instruction that fails changes nothing.

What an instruction does is decided before anything is changed: its *effect* is one of six small
changes, and executing it is making that change.

`dataAddress?` says, without executing it, which word of memory an instruction reads or
writes. -/

namespace RegisterMachine

/-- The register that an operand names. -/
def registerOf (index : UInt8) : Except Fault (Fin registerCount) :=
  if h : index.toNat < registerCount then .ok ⟨index.toNat, h⟩ else .error (.invalidRegister index)

/-- The address that a word stands for. -/
def addressOf (w : Word) : Except Fault (Fin memorySize) :=
  if h : w.toNat < memorySize then .ok ⟨w.toNat, h⟩ else .error (.invalidAddress w)

/-- What an instruction does to the machine that executes it. -/
inductive Effect where
  /-- The machine is done. -/
  | finish
  /-- A register gets a word. -/
  | assign (index : Fin registerCount) (w : Word)
  /-- A word of memory is replaced. -/
  | store (address : Fin memorySize) (w : Word)
  /-- Execution goes on at another address. -/
  | jump (target : Fin memorySize)
  /-- A word is printed. -/
  | print (w : Word)
  /-- Nothing changes. -/
  | idle
deriving DecidableEq, Repr

namespace Machine

/-- Goes on at another address. -/
def jump (m : Machine) (target : Fin memorySize) : Machine :=
  { m with ip := target }

/-- Makes the change that an effect stands for. -/
def apply (m : Machine) : Effect → Machine
  | .finish => m.setMode .finished
  | .assign index w => m.setRegister index w
  | .store address w => m.setWord address w
  | .jump target => m.jump target
  | .print w => m.write (.printed w)
  | .idle => m

/-- The effect of an operation on its two operands. -/
def perform (m : Machine) (o : Opcode) (first second : UInt8) : Except Fault Effect :=
  match o with
  | .halt => .ok .finish
  | .loadValue => do
    let target ← registerOf first
    return .assign target second.toUInt32
  | .load => do
    let target ← registerOf first
    let pointer ← registerOf second
    let address ← addressOf (m.register pointer)
    return .assign target (m.word address)
  | .copy => do
    let target ← registerOf first
    let source ← registerOf second
    return .assign target (m.register source)
  | .store => do
    let source ← registerOf first
    let pointer ← registerOf second
    let address ← addressOf (m.register pointer)
    return .store address (m.register source)
  | .add => do
    let target ← registerOf first
    let source ← registerOf second
    return .assign target (m.register target + m.register source)
  | .subtract => do
    let target ← registerOf first
    let source ← registerOf second
    return .assign target (m.register target - m.register source)
  | .branchZero => do
    let condition ← registerOf first
    let target ← addressOf second.toUInt32
    return if m.register condition = 0 then .jump target else .idle
  | .branchNonzero => do
    let condition ← registerOf first
    let target ← addressOf second.toUInt32
    return if m.register condition = 0 then .idle else .jump target
  | .printRegister => do
    let source ← registerOf first
    return .print (m.register source)
  | .printMemory => do
    let pointer ← registerOf first
    let address ← addressOf (m.register pointer)
    return .print (m.word address)
  | .breakpoint => .error .unexpectedBreakpoint

/-- The effect of an instruction, if its operation is known. -/
def effect (m : Machine) (i : Instruction) : Except Fault Effect :=
  match i.opcode? with
  | none => .error (.unknownOpcode i.code)
  | some o => m.perform o i.first i.second

/-- Executes an instruction that the machine has just moved past. -/
def execute (m : Machine) (i : Instruction) : Except Trap Machine :=
  match m.effect i with
  | .error fault => .error ⟨m.ip - 1, fault⟩
  | .ok e => .ok (m.apply e)

end Machine

/-- The operand that names the register with the address of the word an instruction reads or
writes. -/
def Instruction.pointer? (i : Instruction) : Option UInt8 :=
  match i.opcode? with
  | some .load | some .store => some i.second
  | some .printMemory => some i.first
  | _ => none

/-- The address of the word of memory that an instruction would read or write. -/
def Machine.dataAddress? (m : Machine) (i : Instruction) : Option (Fin memorySize) := do
  let operand ← i.pointer?
  let pointer ← (registerOf operand).toOption
  (addressOf (m.register pointer)).toOption

end RegisterMachine
