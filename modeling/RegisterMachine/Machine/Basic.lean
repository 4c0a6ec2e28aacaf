import RegisterMachine.Program
import RegisterMachine.Transcript
import RegisterMachine.Machine.Fault

/-! # The machine

A machine has memory, registers, and the address of the next instruction.  It also knows the
mode it is in, which decides whether it goes on after an instruction, and keeps a transcript of
what it has written.

The instruction pointer may stand one past the last word of memory, where nothing can be
fetched. -/

namespace RegisterMachine

/-- How a machine goes on after an instruction.  Unless something else is said, it pauses. -/
inductive Mode where
  /-- It pauses for a command. -/
  | stepping
  /-- It takes the next instruction. -/
  | running
  /-- It is done. -/
  | finished
deriving DecidableEq, Repr, Inhabited

/-- The state of a machine. -/
structure Machine where
  /-- The words of memory, by address. -/
  memory : Vector Word memorySize
  /-- The address of the next instruction. -/
  ip : Nat
  /-- The words in the registers. -/
  registers : Vector Word registerCount
  /-- How it goes on. -/
  mode : Mode
  /-- What it has written. -/
  transcript : Transcript
deriving DecidableEq, Repr

namespace Machine

/-- The memory that starts with a program and is zero after it. -/
def memoryOf (p : Program) : Vector Word memorySize :=
  Vector.ofFn fun address => p[address.val]?.getD 0

/-- A machine in which everything is zero. -/
def blank : Machine where
  memory := Vector.replicate memorySize 0
  ip := 0
  registers := Vector.replicate registerCount 0
  mode := .running
  transcript := []

/-- Puts a program into memory and clears everything but the transcript. -/
def load (m : Machine) (p : Program) : Except Program.Error Machine :=
  if p.length > memorySize then .error (.tooLong p.length memorySize)
  else .ok { blank with memory := memoryOf p, transcript := m.transcript }

/-- The word at an address, if memory has that address. -/
def word? (m : Machine) (address : Nat) : Option Word :=
  m.memory[address]?

/-- The word at an address of memory. -/
def word (m : Machine) (address : Fin memorySize) : Word :=
  m.memory[address]

/-- Puts a word into memory. -/
def setWord (m : Machine) (address : Fin memorySize) (w : Word) : Machine :=
  { m with memory := m.memory.set address w }

/-- The word in a register. -/
def register (m : Machine) (index : Fin registerCount) : Word :=
  m.registers[index]

/-- Puts a word into a register. -/
def setRegister (m : Machine) (index : Fin registerCount) (w : Word) : Machine :=
  { m with registers := m.registers.set index w }

/-- Goes on in another mode. -/
def setMode (m : Machine) (mode : Mode) : Machine :=
  { m with mode := mode }

/-- Writes an entry to the transcript. -/
def write (m : Machine) (e : Entry) : Machine :=
  { m with transcript := e :: m.transcript }

/-- Whether the machine is done. -/
def isFinished (m : Machine) : Bool :=
  m.mode == .finished

/-- Moves past the next instruction. -/
def advance (m : Machine) : Machine :=
  { m with ip := m.ip + 1 }

/-- The next instruction. -/
def peek (m : Machine) : Except Trap Instruction :=
  match m.word? m.ip with
  | none => .error ⟨m.ip, .pointerOutOfRange m.ip⟩
  | some w => .ok (Instruction.decode w)

/-- The next instruction, with its address and the machine that has moved past it. -/
def fetch (m : Machine) : Except Trap (Nat × Instruction × Machine) :=
  m.peek.map fun i => (m.ip, i, m.advance)

/-! ## Reading back -/

theorem word?_eq (m : Machine) (address : Fin memorySize) :
    m.word? address = some (m.word address) := by
  simp [word?, word]

theorem word?_eq_none_iff {m : Machine} {address : Nat} :
    m.word? address = none ↔ memorySize ≤ address := by
  simp [word?]

@[simp] theorem word_setWord_self (m : Machine) (address : Fin memorySize) (w : Word) :
    (m.setWord address w).word address = w := by
  simp [word, setWord]

theorem word_setWord_of_ne (m : Machine) {address other : Fin memorySize} (w : Word)
    (h : other ≠ address) : (m.setWord address w).word other = m.word other := by
  have hne : address.val ≠ other.val := fun he => h (Fin.ext he.symm)
  simp [word, setWord, hne]

end Machine
end RegisterMachine
