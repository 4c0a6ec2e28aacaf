import RegisterMachine.Machine.Execute

/-! # Executing in place

`execute` decides what an instruction does before it changes anything, and gives no machine when it
fails.  Here the machine is one that is changed in place: every operation checks its operands and
makes its change in the order in which it comes to them, and the machine that is left is there also
when a check has failed. -/

namespace RegisterMachine

/-- Something done to a machine in place.  It may fail, and what it has changed by then stays
changed. -/
abbrev Machine.Action := ExceptT Fault (StateM Machine)

namespace Machine

/-- Carries out an operation on its two operands. -/
def handle (o : Opcode) (first second : UInt8) : Action Unit :=
  match o with
  | .halt => modify fun m => m.setMode .finished
  | .loadValue => do
    let target ← registerOf first
    modify fun m => m.setRegister target second.toUInt32
  | .load => do
    let target ← registerOf first
    let pointer ← registerOf second
    let address ← addressOf ((← get).register pointer)
    modify fun m => m.setRegister target (m.word address)
  | .copy => do
    let target ← registerOf first
    let source ← registerOf second
    modify fun m => m.setRegister target (m.register source)
  | .store => do
    let source ← registerOf first
    let pointer ← registerOf second
    let address ← addressOf ((← get).register pointer)
    modify fun m => m.setWord address (m.register source)
  | .add => do
    let target ← registerOf first
    let source ← registerOf second
    modify fun m => m.setRegister target (m.register target + m.register source)
  | .subtract => do
    let target ← registerOf first
    let source ← registerOf second
    modify fun m => m.setRegister target (m.register target - m.register source)
  | .branchZero => do
    let condition ← registerOf first
    let target ← addressOf second.toUInt32
    if (← get).register condition = 0 then
      modify fun m => m.jump target
  | .branchNonzero => do
    let condition ← registerOf first
    let target ← addressOf second.toUInt32
    if (← get).register condition ≠ 0 then
      modify fun m => m.jump target
  | .printRegister => do
    let source ← registerOf first
    modify fun m => m.write (.printed (m.register source))
  | .printMemory => do
    let pointer ← registerOf first
    let address ← addressOf ((← get).register pointer)
    modify fun m => m.write (.printed (m.word address))
  | .breakpoint => throw .unexpectedBreakpoint

/-- Carries out an instruction that the machine has just moved past.  Gives what has stopped it, if
anything has, and the machine that is left. -/
def carryOut (m : Machine) (i : Instruction) : Except Trap Unit × Machine :=
  match i.opcode? with
  | none => (.error ⟨m.ip - 1, .unknownOpcode i.code⟩, m)
  | some o =>
    let (result, left) := (handle o i.first i.second).run.run m
    (result.mapError (Trap.mk (m.ip - 1)), left)

end Machine
end RegisterMachine
