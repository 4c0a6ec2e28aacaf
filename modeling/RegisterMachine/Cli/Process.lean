import RegisterMachine.Assembly.Assemble
import RegisterMachine.Cli.Arguments
import RegisterMachine.Cli.Status
import RegisterMachine.Session.Run

/-! # What a command line does

A command line is a function of its arguments and of what it finds around it: what can be read
from standard input and from files, and where it may write.  It gives a report: what to write
where, and how it ended.  Nothing is written before it is certain, so a source that cannot be
assembled leaves no file behind, and only the output of a program that failed is shown, not the
machine.

A program may run forever, so the report is bounded by a fuel; without one there is no report
yet. -/

namespace RegisterMachine
namespace Cli

/-- What a command line can find out about its surroundings. -/
structure Surroundings where
  /-- Everything on standard input. -/
  stdin : ByteArray
  /-- The content of a file, if it can be read. -/
  read : Path → Option ByteArray
  /-- Whether a file can be written. -/
  writable : Path → Bool

/-- Why a command line that is right could not be carried out. -/
inductive Failure where
  /-- The input cannot be read, or is not text. -/
  | unreadable
  /-- The output cannot be written. -/
  | unwritable
  /-- Program and commands cannot both come from standard input. -/
  | streamTwice
  /-- The source cannot be assembled. -/
  | assembly (error : Assembly.Error)
  /-- The program cannot be used. -/
  | program (error : Program.Error)
  /-- The program was stopped. -/
  | trap (trap : Trap)
deriving DecidableEq, Repr

/-- What is reported about a failure; those of reading and writing have no diagnostic. -/
def Failure.diagnostic? : Failure → Option Diagnostic
  | assembly e => some e.diagnostic
  | program e => some e.diagnostic
  | trap t => some t.diagnostic
  | unreadable | unwritable | streamTwice => none

/-- How a command line ends. -/
inductive Exit where
  /-- Everything was done. -/
  | success
  /-- It could not be carried out. -/
  | failure (reason : Failure)
  /-- The arguments were wrong. -/
  | usage
deriving DecidableEq, Repr

namespace Exit

/-- The exit code. -/
def code : Exit → Nat
  | success => 0
  | failure _ => 1
  | usage => 2

/-- The diagnostic of the error that ended it. -/
def diagnostic? : Exit → Option Diagnostic
  | failure reason => reason.diagnostic?
  | success | usage => none

end Exit

/-- What a command line did. -/
structure Report where
  /-- How it ended. -/
  exit : Exit
  /-- What goes to standard output. -/
  stdout : Text := []
  /-- The status lines, in order. -/
  status : List Status := []
  /-- The file to write, and what to write into it. -/
  saved : Option (Path × Text) := none
deriving DecidableEq, Repr

/-- The name and version of the program. -/
def versionLine : Text := "stepvm 0.1.0\n".toList

namespace Surroundings

/-- The text at a path. -/
def text? (s : Surroundings) (p : Path) : Option Text :=
  (if p.isStream then some s.stdin else s.read p).bind Text.decode?

/-- A machine loaded with the program at a path. -/
def load (s : Surroundings) (p : Path) : Except Failure Machine :=
  match s.text? p with
  | none => .error .unreadable
  | some t =>
    match Program.read t with
    | .error e => .error (.program e)
    | .ok words =>
      match Machine.blank.load words with
      | .error e => .error (.program e)
      | .ok m => .ok m

/-- Assembles a source. -/
def assemble (s : Surroundings) (input output : Path) : Report :=
  let begun := [Status.assembling input]
  match s.text? input with
  | none => { exit := .failure .unreadable, status := begun }
  | some t =>
    let assembly := Assembly.ofText t
    match assembly.program with
    | .error e => { exit := .failure (.assembly e), status := begun }
    | .ok words =>
      let done := begun ++ [.assembled words.length assembly.labels.length, .saved output]
      if output.isStream then { exit := .success, stdout := Program.print words, status := done }
      else if s.writable output then
        { exit := .success, status := done, saved := some (output, Program.print words) }
      else { exit := .failure .unwritable, status := begun }

/-- Runs a program and shows the machine. -/
def run (s : Surroundings) (fuel : Nat) (program : Path) (minimal : Bool) : Option Report :=
  let (_, verbosity) := Verbosity.replace {} minimal
  match s.load program with
  | .error reason => some { exit := .failure reason }
  | .ok m =>
    match m.run fuel with
    | .outOfFuel _ => none
    | .crashed c =>
      some
        { exit := .failure (.trap c.trap)
          stdout := c.state.transcript.text false
          status := verbosity.keep [.running program] }
    | .completed last =>
      some
        { exit := .success
          stdout := last.writeDump.transcript.text false
          status := verbosity.keep [.running program, .completed program] }

/-- Runs a program in a session and shows the machine and its breakpoints.  Prompts are shown
where commands are piped. -/
def debug (s : Surroundings) (fuel : Nat) (program : Path) (command : Option Text)
    (minimal : Bool) : Option Report :=
  let (_, verbosity) := Verbosity.replace {} minimal
  let prompts := command.isNone
  if program.isStream && command.isNone then some { exit := .failure .streamTwice }
  else
    match s.load program with
    | .error reason => some { exit := .failure reason }
    | .ok m =>
      let script := match command with
        | some t => Script.ofText t
        | none => Script.ofBytes s.stdin
      match (Session.start m script).run fuel with
      | .outOfFuel _ => none
      | .crashed c =>
        some
          { exit := .failure (.trap c.trap)
            stdout := c.state.machine.transcript.text prompts
            status := verbosity.keep [.debugging program] }
      | .completed last =>
        some
          { exit := .success
            stdout := last.writeDump.machine.transcript.text prompts
            status := verbosity.keep [.debugging program, .completed program] }

/-- Does what a command line asks for. -/
def perform (s : Surroundings) (fuel : Nat) : Invocation → Option Report
  | .version => some { exit := .success, stdout := versionLine }
  | .assemble input output => some (s.assemble input output)
  | .run program minimal => s.run fuel program minimal
  | .debug program command minimal => s.debug fuel program command minimal

/-- Does what arguments ask for, if they are right. -/
def performArguments (s : Surroundings) (fuel : Nat) (arguments : List Text) : Option Report :=
  match Invocation.ofArguments? arguments with
  | none => some { exit := .usage }
  | some invocation => s.perform fuel invocation

end Surroundings

/-- A fuel that no run uses up in practice. -/
def ampleFuel : Nat := 1 <<< 62

end Cli
end RegisterMachine
