import RegisterMachine.Session.Basic

/-! # Running a session

A session goes on in cycles.  Each arrives at an instruction, pauses there if it has to, and
then executes it.  It pauses when it is stepping, and wherever a breakpoint is set; the
instruction that it executes is in any case the one that belongs there.  A breakpoint word that
nobody has set stops the session. -/

namespace RegisterMachine

/-- What a session finds at the instruction pointer. -/
structure Arrival where
  /-- The instruction to execute. -/
  instruction : Instruction
  /-- Whether to pause before. -/
  pauses : Bool
deriving DecidableEq, Repr

/-- What there is at the instruction pointer. -/
def Patched.arrival (p : Patched) : Except Trap Arrival :=
  match p.machine.peek with
  | .error trap => .error trap
  | .ok found =>
    if found.opcode? = some .breakpoint then
      match p.breakpoints.saved? p.machine.ip with
      | none => .error ⟨p.machine.ip, .unexpectedBreakpoint⟩
      | some saved => .ok ⟨Instruction.decode saved, true⟩
    else .ok ⟨found, p.machine.mode == .stepping⟩

namespace Session

/-- Moves past an instruction and executes it. -/
def execute (s : Session) (i : Instruction) : Except (Crash Session) Session :=
  match Patched.execute { s.toPatched with machine := s.machine.advance } i with
  | .error c => .error ⟨c.trap, { s with toPatched := c.state }⟩
  | .ok next => .ok { s with toPatched := next }

/-- Arrives at an instruction, pauses there if it has to, and executes it unless it is told to
quit. -/
def cycle (s : Session) : Except (Crash Session) Session :=
  match s.arrival with
  | .error trap => .error ⟨trap, s⟩
  | .ok arrival =>
    let ready := if arrival.pauses then s.pause else s
    if ready.isFinished then .ok ready else ready.execute arrival.instruction

/-- Runs a session, pausing at once, until the program ends or a command ends it. -/
def run (fuel : Nat) (s : Session) : Ending Session :=
  iterate isFinished cycle fuel { s with toPatched := s.toPatched.setMode .stepping }

end Session
end RegisterMachine
