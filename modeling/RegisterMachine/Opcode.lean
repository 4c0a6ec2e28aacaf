import RegisterMachine.Text.Blank

/-! # Operations

The machine knows twelve operations.  Each has a code, by which it stands in memory, a
mnemonic, by which it stands in a source line, and a format, which says what its operands are.
Code and mnemonic determine the operation (`ofCode?_code`, `ofMnemonic?_mnemonic`), so memory
and source are two spellings of the same thing. -/

namespace RegisterMachine

/-- What operands an operation takes. -/
inductive Format where
  /-- No operands. -/
  | bare
  /-- One register. -/
  | register
  /-- Two registers. -/
  | registerPair
  /-- A register, then a value: a number, or the address of a label. -/
  | registerValue
deriving DecidableEq, Repr

/-- How many operands a format has. -/
def Format.operandCount : Format → Nat
  | bare => 0
  | register => 1
  | registerPair => 2
  | registerValue => 2

/-- An operation of the machine. -/
inductive Opcode where
  /-- Ends the program. -/
  | halt
  /-- Puts a value into a register. -/
  | loadValue
  /-- Puts the word at the address in the second register into the first. -/
  | load
  /-- Puts the second register into the first. -/
  | copy
  /-- Puts the first register into the word at the address in the second. -/
  | store
  /-- Adds the second register to the first. -/
  | add
  /-- Subtracts the second register from the first. -/
  | subtract
  /-- Goes to an address if the register is zero. -/
  | branchZero
  /-- Goes to an address unless the register is zero. -/
  | branchNonzero
  /-- Prints a register. -/
  | printRegister
  /-- Prints the word at the address in a register. -/
  | printMemory
  /-- Stands where a breakpoint is set; never part of a program. -/
  | breakpoint
deriving DecidableEq, Repr

namespace Opcode

/-- All operations, by ascending code. -/
def all : List Opcode :=
  [halt, loadValue, load, copy, store, add, subtract, branchZero, branchNonzero, printRegister,
   printMemory, breakpoint]

/-- The number by which an operation stands in an instruction word. -/
def code : Opcode → UInt8
  | halt => 1
  | loadValue => 2
  | load => 3
  | copy => 4
  | store => 5
  | add => 6
  | subtract => 7
  | branchZero => 8
  | branchNonzero => 9
  | printRegister => 10
  | printMemory => 11
  | breakpoint => 12

/-- The word by which an operation stands in a source line. -/
def mnemonic : Opcode → Text
  | halt => "hlt".toList
  | loadValue => "ldc".toList
  | load => "ldr".toList
  | copy => "cpy".toList
  | store => "str".toList
  | add => "add".toList
  | subtract => "sub".toList
  | branchZero => "beq".toList
  | branchNonzero => "bne".toList
  | printRegister => "prr".toList
  | printMemory => "prm".toList
  | breakpoint => "brk".toList

/-- What operands an operation takes. -/
def format : Opcode → Format
  | halt | breakpoint => .bare
  | printRegister | printMemory => .register
  | load | copy | store | add | subtract => .registerPair
  | loadValue | branchZero | branchNonzero => .registerValue

/-- Whether an operation is kept for the debugger, so that no source may name it. -/
def isReserved (o : Opcode) : Bool :=
  o == breakpoint

/-- The operation with a code. -/
def ofCode? (code : UInt8) : Option Opcode :=
  all.find? fun o => o.code == code

/-- The operation with a mnemonic. -/
def ofMnemonic? (name : Text) : Option Opcode :=
  all.find? fun o => o.mnemonic == name

/-! ## Codes and mnemonics determine the operation -/

@[simp] theorem ofCode?_code (o : Opcode) : ofCode? o.code = some o := by
  cases o <;> rfl

@[simp] theorem ofMnemonic?_mnemonic (o : Opcode) : ofMnemonic? o.mnemonic = some o := by
  cases o <;> decide

theorem ofCode?_eq_some_iff {code : UInt8} {o : Opcode} :
    ofCode? code = some o ↔ o.code = code := by
  constructor
  · intro h
    simpa using List.find?_some h
  · rintro rfl
    exact ofCode?_code o

theorem ofMnemonic?_eq_some_iff {name : Text} {o : Opcode} :
    ofMnemonic? name = some o ↔ o.mnemonic = name := by
  constructor
  · intro h
    simpa using List.find?_some h
  · rintro rfl
    exact ofMnemonic?_mnemonic o

end Opcode
end RegisterMachine
