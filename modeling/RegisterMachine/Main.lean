import RegisterMachine.Cli.Process

/-! # The program

Connects the command line to the files and streams it runs with. -/

namespace RegisterMachine
namespace Cli

/-- Reads a file, unless it cannot be read. -/
def readFile? (p : Path) : IO (Option ByteArray) :=
  try some <$> IO.FS.readBinFile (String.ofList p) catch _ => pure none

/-- Writes what a report asks for, and says whether that was possible. -/
def saveFile (saved : Option (Path × Text)) : IO Bool :=
  match saved with
  | none => pure true
  | some (p, t) =>
    try
      IO.FS.writeFile (String.ofList p) (String.ofList t)
      pure true
    catch _ => pure false

/-- What an invocation finds around it. -/
def lookAround (invocation : Invocation) : IO Surroundings := do
  let stream := (invocation.input?.map Path.isStream).getD false
  let stdin ←
    if stream != invocation.pipesCommands then (← IO.getStdin).readBinToEnd
    else pure ByteArray.empty
  let content ← match invocation.input? with
    | some p => if stream then pure none else readFile? p
    | none => pure none
  return { stdin, read := fun _ => content, writable := fun _ => true }

/-- Tells the user about a report, and gives its exit code. -/
def present (r : Report) : IO UInt32 := do
  for s in r.status do
    IO.eprintln (String.ofList s.line)
  IO.print (String.ofList r.stdout)
  match r.exit with
  | .usage => IO.eprintln "error: wrong arguments"
  | .failure .streamTwice =>
    IO.eprintln "Cannot read both program and debugger commands from standard input"
  | .failure .unreadable => IO.eprintln "The input cannot be read"
  | .failure .unwritable => IO.eprintln "The output cannot be written"
  | _ => pure ()
  if let some d := r.exit.diagnostic? then
    IO.eprintln s!"{d.code}: {d.message}"
    if let some help := d.help then
      IO.eprintln s!"help: {help}"
  return UInt32.ofNat r.exit.code

/-- Runs a command line. -/
def runProgram (arguments : List String) : IO UInt32 := do
  match Invocation.ofArguments? (arguments.map String.toList) with
  | none => present { exit := .usage }
  | some invocation =>
    let around ← lookAround invocation
    match around.perform ampleFuel invocation with
    | none => return 1
    | some report =>
      if ← saveFile report.saved then present report
      else
        match { around with writable := fun _ => false }.perform ampleFuel invocation with
        | none => return 1
        | some failed => present failed

end Cli
end RegisterMachine

/-- The entry point of the program. -/
def main (arguments : List String) : IO UInt32 :=
  RegisterMachine.Cli.runProgram arguments
