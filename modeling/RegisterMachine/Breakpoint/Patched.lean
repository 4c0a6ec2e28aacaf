import RegisterMachine.Breakpoint.Table
import RegisterMachine.Machine.Dump
import RegisterMachine.Machine.Run

/-! # Machines with breakpoints

A breakpoint is set by putting the breakpoint word in place of the word at an address, so that
the machine finds it when it gets there.  The program must not notice: an instruction that
reads or writes a patched word gets the word that belongs there, which is put back for as long
as the instruction takes.

What the program sees is the *view* of a patched machine, its memory with all saved words in
their places; `plain` is the machine whose memory is the view. -/

namespace RegisterMachine

/-- A machine in whose memory breakpoints may be set. -/
structure Patched where
  /-- The machine, with the breakpoint word wherever a breakpoint is set. -/
  machine : Machine
  /-- The words that belong there. -/
  breakpoints : Breakpoints
deriving DecidableEq, Repr

/-- An address at which no breakpoint can be, because memory ends before it. -/
structure Breakpoints.OutOfRange where
  /-- The address asked for. -/
  address : Nat
deriving DecidableEq, Repr

/-- What is said when no breakpoint can be at an address. -/
def Breakpoints.OutOfRange.message (e : Breakpoints.OutOfRange) : String :=
  let address := String.ofList (Text.paddedHex e.address)
  let limit := String.ofList (Text.paddedHex memorySize)
  s!"No breakpoint possible at {address}, out of range 0..{limit}"

namespace Patched

/-- A machine without breakpoints. -/
def ofMachine (m : Machine) : Patched where
  machine := m
  breakpoints := []

/-- The word at an address as the program sees it. -/
def view? (p : Patched) (address : Nat) : Option Word :=
  (p.breakpoints.saved? address).or (p.machine.word? address)

/-- The machine as the program sees it. -/
def plain (p : Patched) : Machine :=
  { p.machine with
    memory := Vector.ofFn fun address =>
      (p.breakpoints.saved? address.val).getD (p.machine.word address) }

/-- Goes on in another mode. -/
def setMode (p : Patched) (mode : Mode) : Patched :=
  { p with machine := p.machine.setMode mode }

/-- Writes an entry to the transcript. -/
def write (p : Patched) (e : Entry) : Patched :=
  { p with machine := p.machine.write e }

/-! ## Setting and clearing -/

/-- Sets a breakpoint, and says whether it is new.  It is not if there is one already, or if the
program has the breakpoint word there by itself. -/
def set (p : Patched) (address : Nat) : Except Breakpoints.OutOfRange (Bool × Patched) :=
  if h : address < memorySize then
    let cell : Fin memorySize := ⟨address, h⟩
    if p.breakpoints.isSet address || p.machine.word cell == breakpointWord then .ok (false, p)
    else
      .ok (true,
        { machine := p.machine.setWord cell breakpointWord
          breakpoints := p.breakpoints.save address (p.machine.word cell) })
  else .error ⟨address⟩

/-- Clears a breakpoint, and says whether there was one. -/
def clear (p : Patched) (address : Nat) : Except Breakpoints.OutOfRange (Bool × Patched) :=
  if h : address < memorySize then
    let cell : Fin memorySize := ⟨address, h⟩
    if p.machine.word cell = breakpointWord then
      match p.breakpoints.saved? address with
      | none => .ok (false, p)
      | some saved =>
        .ok (true,
          { machine := p.machine.setWord cell saved
            breakpoints := p.breakpoints.forget address })
    else .ok (false, p)
  else .error ⟨address⟩

/-! ## Executing -/

/-- The patched word that an instruction would read or write: its address and what belongs
there. -/
def touched? (p : Patched) (i : Instruction) : Option (Fin memorySize × Word) := do
  let address ← p.machine.dataAddress? i
  let saved ← p.breakpoints.saved? address
  return (address, saved)

/-- Sets the breakpoint at an address again after an instruction, and saves the word found
there. -/
def repatch (p : Patched) (address : Fin memorySize) (m : Machine) : Patched where
  machine := m.setWord address breakpointWord
  breakpoints := p.breakpoints.save address (m.word address)

/-- Executes an instruction as if no breakpoint were set. -/
def execute (p : Patched) (i : Instruction) : Except (Crash Patched) Patched :=
  match p.touched? i with
  | none =>
    match p.machine.execute i with
    | .error trap => .error ⟨trap, p⟩
    | .ok next => .ok { p with machine := next }
  | some (address, saved) =>
    let restored := p.machine.setWord address saved
    match restored.execute i with
    | .error trap => .error ⟨trap, p.repatch address restored⟩
    | .ok next => .ok (p.repatch address next)

/-! ## Showing -/

/-- The line of a breakpoint: its address and the instruction that belongs there. -/
def breakpointLine (address : Nat) (w : Word) : Text :=
  Text.paddedHex address ++ ": ".toList ++ ((Instruction.decode w).describe?.getD w.text)

/-- The line between the machine and its breakpoints. -/
def rule : Text := "------".toList

/-- The lines of a dump: the machine, then its breakpoints. -/
def dump (p : Patched) : List Text :=
  p.machine.dump ++
    if p.breakpoints.isEmpty then []
    else rule :: p.breakpoints.map fun entry => breakpointLine entry.1 entry.2

/-- Writes a dump to the transcript. -/
def writeDump (p : Patched) : Patched :=
  { p with machine := { p.machine with transcript := p.machine.transcript.report p.dump } }

/-- What is said about the instruction at an address. -/
def describe (p : Patched) (address : Nat) : Text :=
  let i := Instruction.decode ((p.view? address).getD 0)
  i.describe?.getD
    ("Unknown op code ".toList ++ Text.decimal i.code.toNat ++ " at ".toList ++
      Text.paddedHex address)

end Patched
end RegisterMachine
