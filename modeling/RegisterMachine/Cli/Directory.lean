import RegisterMachine.Cli.Process

/-! # A directory to work in

A directory holds files and no other directories.  A path leads to a file in it by its name,
with dots before the name or not; every other path leads nowhere, so that it can be neither
read nor written. -/

namespace RegisterMachine
namespace Cli

/-- The name of the file that a path leads to.  A path that starts at the root, that goes through
another directory, or that ends in no name leads to none. -/
def Path.name? (p : Path) : Option Text :=
  match p.components.reverse with
  | [] => none
  | name :: before =>
    let relative := p.components.head? != some []
    if relative && before.all isIdle && !isIdle name && name != "..".toList then some name else none

/-- The files of a directory, by name. -/
structure Directory where
  /-- Names and contents, each name once. -/
  files : List (Text × ByteArray) := []

namespace Directory

/-- The content of a file. -/
def content? (d : Directory) (name : Text) : Option ByteArray :=
  d.files.lookup name

/-- Replaces the content of a file, or adds the file. -/
def write (d : Directory) (name : Text) (content : ByteArray) : Directory :=
  { files := d.files.filter (fun file => file.1 != name) ++ [(name, content)] }

/-- What a command line finds in a directory. -/
def surroundings (d : Directory) (stdin : ByteArray) : Surroundings where
  stdin := stdin
  read := fun p => p.name?.bind d.content?
  writable := fun p => p.name?.isSome

/-- The directory after a command line has done its work. -/
def apply (d : Directory) (r : Report) : Directory :=
  match r.saved with
  | none => d
  | some (p, t) =>
    match p.name? with
    | none => d
    | some name => d.write name (Text.encode t)

/-- Does what arguments ask for, in a directory. -/
def perform (d : Directory) (stdin : ByteArray) (fuel : Nat) (arguments : List Text) :
    Option (Report × Directory) :=
  ((d.surroundings stdin).performArguments fuel arguments).map fun r => (r, d.apply r)

end Directory
end Cli
end RegisterMachine
