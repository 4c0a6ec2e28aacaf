import RegisterMachine.Breakpoint.Patched
import RegisterMachine.Session.Command
import RegisterMachine.Session.Script

/-! # Sessions and pauses

A session is a patched machine together with the script that says what to do with it.  At a
pause it reads commands until one of them lets execution go on: `step` for one instruction,
`run` up to the next breakpoint, or `quit`, for which the end of the script stands too.  Blank
texts are passed over, and a text that is not a command is answered with what is wrong with
it. -/

namespace RegisterMachine

/-- A patched machine and what is still to be done with it. -/
structure Session extends Patched where
  /-- The commands not yet read. -/
  unread : Script
deriving DecidableEq, Repr

namespace Patched

/-- Puts the result of setting or clearing a breakpoint in place, or reports why it cannot be
done. -/
def settle (p : Patched) : Except Breakpoints.OutOfRange (Bool × Patched) → Patched
  | .ok (_, changed) => changed
  | .error e => p.write (.line e.message.toList)

/-- Does what a command says, at a pause at an address. -/
def obey (p : Patched) (address : Nat) : Command → Patched
  | .disassemble => p.write (.line (p.describe address))
  | .memory => p.writeDump
  | .step => p
  | .run => p.setMode .running
  | .quit => p.setMode .finished
  | .setBreakpoint given => p.settle (p.set (given.getD address))
  | .clearBreakpoint given => p.settle (p.clear (given.getD address))

/-- Reads commands at an address and does what they say, until one of them ends the pause. -/
def converse (address : Nat) : Script → Patched → Session
  | [], p => { toPatched := (p.write (.prompt address)).setMode .finished, unread := [] }
  | t :: rest, p =>
    let asked := p.write (.prompt address)
    if (Text.trim t).isEmpty then converse address rest asked
    else
      match Command.read (Text.trim t) with
      | .error e => converse address rest (asked.write (.line e.message.toList))
      | .ok c =>
        if c.resumes then { toPatched := asked.obey address c, unread := rest }
        else converse address rest (asked.obey address c)

end Patched

namespace Session

/-- A session that has a machine and a script and no breakpoints yet. -/
def start (m : Machine) (script : Script) : Session where
  toPatched := .ofMachine m
  unread := script

/-- Pauses at the next instruction. -/
def pause (s : Session) : Session :=
  (s.toPatched.setMode .stepping).converse s.machine.ip s.unread

/-- Whether the session is over. -/
def isFinished (s : Session) : Bool :=
  s.machine.isFinished

end Session
end RegisterMachine
