import RegisterMachine.Instruction
import RegisterMachine.Assembly.Label

/-! # Operands

An operand is a register, written `R` and its number, or a value, written as a decimal number
or as `@` and the name of a label.  Both end up in a field of eight bits, so a label whose
address does not fit in one is no value. -/

namespace RegisterMachine
namespace Assembly

/-- Starts a register operand. -/
def registerMark : Char := 'R'

/-- Starts a reference to a label. -/
def labelMark : Char := '@'

/-- The number in a register operand, whether there is such a register or not. -/
def registerNumber? : Text → Option Nat
  | [] => none
  | mark :: digits =>
    if mark = registerMark then (Text.natural? 10 digits).filter (· < Text.countLimit) else none

/-- Reads a register operand. -/
def register (token : Text) : Except Violation UInt8 :=
  match registerNumber? token with
  | none => .error (.malformedRegister token)
  | some n => if n < registerCount then .ok (UInt8.ofNat n) else .error (.invalidRegister token)

/-- The value of a reference to a label, written as `token`. -/
def labelValue (table : LabelTable) (token name : Text) : Except Violation UInt8 :=
  match table.address? name with
  | none => .error (.unknownLabel name)
  | some address =>
    if address < UInt8.size then .ok (UInt8.ofNat address) else .error (.invalidValue token)

/-- The value that a number stands for. -/
def numberValue (token : Text) : Except Violation UInt8 :=
  match Text.number? 10 UInt8.size token with
  | none => .error (.invalidValue token)
  | some n => .ok (UInt8.ofNat n)

/-- Reads a value operand. -/
def value (table : LabelTable) : Text → Except Violation UInt8
  | [] => numberValue []
  | mark :: name =>
    if mark = labelMark then labelValue table (mark :: name) name else numberValue (mark :: name)

/-- Reads the operands of an operation, from left to right, into the two fields for them.  A
field that the operation does not use is zero. -/
def operands (table : LabelTable) (o : Opcode) (tokens : List Text) :
    Except Violation (UInt8 × UInt8) :=
  match o.format, tokens with
  | .bare, [] => .ok (0, 0)
  | .register, [a] => do
    let first ← register a
    return (first, 0)
  | .registerPair, [a, b] => do
    let first ← register a
    let second ← register b
    return (first, second)
  | .registerValue, [a, b] => do
    let first ← register a
    let second ← value table b
    return (first, second)
  | format, tokens =>
    .error (.wrongOperandCount o.mnemonic format.operandCount tokens.length)

end Assembly
end RegisterMachine
