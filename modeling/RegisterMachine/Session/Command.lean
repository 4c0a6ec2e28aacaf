import RegisterMachine.Text.Numeral
import RegisterMachine.Text.Split
import RegisterMachine.Word

/-! # Commands

A command is a word, of which there are long and short forms, and for two of them an address
may follow.  Addresses are decimal, or hexadecimal after `0x`. -/

namespace RegisterMachine

/-- What a paused session can be told. -/
inductive Command where
  /-- Say what the next instruction is. -/
  | disassemble
  /-- Show the machine and its breakpoints. -/
  | memory
  /-- Execute one instruction. -/
  | step
  /-- Go on to the next breakpoint. -/
  | run
  /-- Leave. -/
  | quit
  /-- Set a breakpoint, at the next instruction unless an address is given. -/
  | setBreakpoint (address : Option Nat)
  /-- Clear a breakpoint, at the next instruction unless an address is given. -/
  | clearBreakpoint (address : Option Nat)
deriving DecidableEq, Repr

namespace Command

/-- The word with which a command starts, in any of its forms. -/
inductive Name where
  | disassemble
  | memory
  | step
  | run
  | quit
  | setBreakpoint
  | clearBreakpoint
deriving DecidableEq, Repr

namespace Name

/-- The form in which a name is shown. -/
def text : Name → String
  | disassemble => "dis"
  | memory => "memory"
  | step => "step"
  | run => "run"
  | quit => "quit"
  | setBreakpoint => "break"
  | clearBreakpoint => "clear"

/-- All forms of the names. -/
def aliases : List (Text × Name) :=
  [("d".toList, disassemble), ("dis".toList, disassemble),
   ("m".toList, memory), ("memory".toList, memory),
   ("s".toList, step), ("step".toList, step), ("n".toList, step), ("next".toList, step),
   ("r".toList, run), ("run".toList, run),
   ("q".toList, quit), ("quit".toList, quit),
   ("b".toList, setBreakpoint), ("break".toList, setBreakpoint),
   ("c".toList, clearBreakpoint), ("clear".toList, clearBreakpoint)]

/-- The name that a word is a form of. -/
def ofAlias? (word : Text) : Option Name :=
  aliases.lookup word

end Name

/-- The name of a command. -/
def name : Command → Name
  | disassemble => .disassemble
  | memory => .memory
  | step => .step
  | run => .run
  | quit => .quit
  | setBreakpoint _ => .setBreakpoint
  | clearBreakpoint _ => .clearBreakpoint

/-- The address in a command. -/
def address? : Command → Option Nat
  | setBreakpoint address | clearBreakpoint address => address
  | _ => none

/-- Whether a command ends a pause. -/
def resumes : Command → Bool
  | step | run | quit => true
  | _ => false

/-! ## Errors -/

/-- What is wrong with the arguments of a command. -/
inductive ArgumentError where
  /-- There are more than it takes. -/
  | tooMany (expected found : Nat)
  /-- The address is not written as a number. -/
  | malformedInteger
  /-- Memory ends before the address. -/
  | outOfRange (address : Nat)
deriving DecidableEq, Repr

/-- Why a line is not a command. -/
inductive Error where
  /-- Its first word is not the name of one. -/
  | unknown (word : Text)
  /-- Its arguments are wrong. -/
  | badArgument (name : Name) (error : ArgumentError)
deriving DecidableEq, Repr

/-- What is said about wrong arguments. -/
def ArgumentError.message : ArgumentError → String
  | tooMany expected found => s!"Too many arguments (expected {expected}, found {found})"
  | malformedInteger => "For argument `address`: Malformed integer"
  | outOfRange address =>
    let shown := String.ofList (Text.paddedHex address)
    let limit := String.ofList (Text.paddedHex memorySize)
    s!"For argument `address`: Address {shown} out of range 0..{limit}"

/-- What is said about a line that is not a command. -/
def Error.message : Error → String
  | unknown word => s!"Unknown command '{String.ofList word}'"
  | badArgument name error => s!"In command `{name.text}`: {error.message}"

/-! ## Reading -/

/-- The number that an address is written as. -/
def addressNumber? : Text → Option Nat
  | '0' :: 'x' :: digits => Text.number? 16 Text.countLimit digits
  | t => Text.number? 10 Text.countLimit t

/-- Reads an address of memory. -/
def readAddress (t : Text) : Except ArgumentError Nat :=
  match addressNumber? t with
  | none => .error .malformedInteger
  | some n => if n < memorySize then .ok n else .error (.outOfRange n)

/-- More arguments than expected.  The number found is capped at the largest byte. -/
def tooMany (expected : Nat) (arguments : List Text) : ArgumentError :=
  .tooMany expected (min arguments.length 255)

/-- Reads the arguments of a command that takes none. -/
def readBare (c : Command) (arguments : List Text) : Except ArgumentError Command :=
  if arguments.isEmpty then .ok c else .error (tooMany 0 arguments)

/-- Reads the arguments of a command that takes an address.  An address that is wrong is
reported before arguments that are too many. -/
def readAddressed (make : Option Nat → Command) : List Text → Except ArgumentError Command
  | [] => .ok (make none)
  | first :: rest =>
    match readAddress first with
    | .error e => .error e
    | .ok address =>
      if rest.isEmpty then .ok (make (some address)) else .error (tooMany 1 (first :: rest))

/-- Reads the arguments of a command. -/
def readArguments : Name → List Text → Except ArgumentError Command
  | .disassemble => readBare disassemble
  | .memory => readBare memory
  | .step => readBare step
  | .run => readBare run
  | .quit => readBare quit
  | .setBreakpoint => readAddressed setBreakpoint
  | .clearBreakpoint => readAddressed clearBreakpoint

/-- Reads a command. -/
def read (line : Text) : Except Error Command :=
  match Text.words line with
  | [] => .error (.unknown [])
  | word :: arguments =>
    match Name.ofAlias? word with
    | none => .error (.unknown word)
    | some name =>
      match readArguments name arguments with
      | .error e => .error (.badArgument name e)
      | .ok c => .ok c

end Command
end RegisterMachine
