import RegisterMachine.Cli.Path

/-! # Arguments

The first argument says what to do: assemble a source, run a program, debug one, or tell the
version.  The others are options and paths, in any order.  Options have a long and a short form;
short ones may stand together after one dash, and a value may follow its option in the same
argument or in the next.  After `--` everything is a path.

Arguments are taken one by one, from left to right; anything that does not fit makes the whole
command line wrong.

The reader stands for a parser that is derived from a table of commands and options.  Of its rules
it follows these:

* a command or a long option is written out in full, never abbreviated, and an option may be given
  once;
* short options may be joined (`-mc`), and the value of one is joined to it, with an equals sign
  before it or not, or is the next argument; that of a long option is joined with an equals sign or
  is the next argument;
* an option that has no value is given none, and a value that is an argument of its own does not
  look like an option; a dash alone is a path or a value;
* no path is missing, left over or empty;
* the version is asked for before any command.

It leaves out what that parser says: the pages of help, so that `-h`, `--help` and the command
`help` count as wrong here, and the text about a wrong command line, of which only the exit code is
kept. -/

namespace RegisterMachine
namespace Cli

/-- What a command line asks for. -/
inductive Invocation where
  /-- Tell the version. -/
  | version
  /-- Assemble a source into a program. -/
  | assemble (input output : Path)
  /-- Run a program and show the machine. -/
  | run (program : Path) (minimal : Bool)
  /-- Run a program in a session, with the given commands or with piped ones. -/
  | debug (program : Path) (command : Option Text) (minimal : Bool)
deriving DecidableEq, Repr

/-- Which options may be given. -/
structure Options where
  /-- `-m`, `--minimal`. -/
  minimal : Bool := false
  /-- `-c`, `--command`, with a value. -/
  command : Bool := false
deriving DecidableEq, Repr

/-- What has been gathered from the arguments so far. -/
structure Gathered where
  /-- Whether output is to be minimal. -/
  minimal : Bool := false
  /-- The commands that were given. -/
  command : Option Text := none
  /-- The arguments that are not options, in order. -/
  paths : List Path := []
  /-- Whether the next argument is the value of an option. -/
  awaiting : Bool := false
  /-- Whether the options have been ended. -/
  ended : Bool := false
deriving DecidableEq, Repr

namespace Gathered

/-- Takes an argument that is not an option. -/
def addPath (g : Gathered) (p : Path) : Gathered :=
  { g with paths := g.paths ++ [p] }

/-- Takes the option for minimal output, at most once. -/
def setMinimal (allowed : Options) (g : Gathered) : Option Gathered :=
  if allowed.minimal && !g.minimal then some { g with minimal := true } else none

/-- Takes the option for commands, at most once, with its value if that is there already. -/
def setCommand (allowed : Options) (g : Gathered) (value : Option Text) : Option Gathered :=
  if allowed.command && g.command.isNone then
    some { g with command := value, awaiting := value.isNone }
  else none

/-- The value that is joined to a short option: what follows it, without an equals sign between
them. -/
def joinedValue : Text → Option Text
  | [] => none
  | '=' :: value => some value
  | value => some value

/-- Takes short options that stand together. -/
def takeShort (allowed : Options) (g : Gathered) : Text → Option Gathered
  | [] => some g
  | 'm' :: rest =>
    match g.setMinimal allowed with
    | none => none
    | some next => takeShort allowed next rest
  | 'c' :: rest => g.setCommand allowed (joinedValue rest)
  | _ :: _ => none

/-- The value that follows the name of a long option and an equals sign. -/
def valueAfter? : Text → Text → Option Text
  | [], '=' :: value => some value
  | n :: name, c :: rest => if n = c then valueAfter? name rest else none
  | _, _ => none

/-- Takes a long option. -/
def takeLong (allowed : Options) (g : Gathered) (option : Text) : Option Gathered :=
  if option = "minimal".toList then g.setMinimal allowed
  else if option = "command".toList then g.setCommand allowed none
  else
    match valueAfter? "command".toList option with
    | none => none
    | some value => g.setCommand allowed (some value)

/-- Whether an argument looks like an option, so that it cannot be the value of one. -/
def isOption : Text → Bool
  | '-' :: _ :: _ => true
  | _ => false

/-- Takes the next argument. -/
def take (allowed : Options) (g : Gathered) (argument : Text) : Option Gathered :=
  if g.ended then some (g.addPath argument)
  else if g.awaiting then
    if isOption argument then none
    else some { g with command := some argument, awaiting := false }
  else
    match argument with
    | ['-', '-'] => some { g with ended := true }
    | '-' :: '-' :: option => g.takeLong allowed option
    | '-' :: c :: rest => g.takeShort allowed (c :: rest)
    | path => some (g.addPath path)

/-- Takes all arguments.  No value may be missing at the end, and no path may be empty. -/
def ofArguments (allowed : Options) (arguments : List Text) : Option Gathered := do
  let g ← arguments.foldlM (take allowed) {}
  if g.awaiting || g.paths.any List.isEmpty then none else some g

end Gathered

namespace Invocation

/-- Whether an argument asks for the version. -/
def asksVersion (argument : Text) : Bool :=
  argument == "--version".toList || "-V".toList.isPrefixOf argument

/-- Reads a command line. -/
def ofArguments? : List Text → Option Invocation
  | [] => none
  | first :: rest =>
    if asksVersion first then some version
    else if first = "assemble".toList then
      match Gathered.ofArguments {} rest with
      | some { paths := [input, output], .. } => some (assemble input output)
      | _ => none
    else if first = "run".toList then
      match Gathered.ofArguments { minimal := true } rest with
      | some { paths := [program], minimal, .. } => some (run program minimal)
      | _ => none
    else if first = "debug".toList then
      match Gathered.ofArguments { minimal := true, command := true } rest with
      | some { paths := [program], minimal, command, .. } => some (debug program command minimal)
      | _ => none
    else none

/-- The file or stream that is read first. -/
def input? : Invocation → Option Path
  | version => none
  | assemble input _ => some input
  | run program _ => some program
  | debug program _ _ => some program

/-- Whether commands are piped. -/
def pipesCommands : Invocation → Bool
  | debug _ none _ => true
  | _ => false

end Invocation
end Cli
end RegisterMachine
