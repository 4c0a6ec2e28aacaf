import RegisterMachine.Text.Split

/-! # Paths

A path on the command line names a file, or the standard stream, which is written `-`.  Paths
are compared by their components, so a slash or a dot after the name makes no difference to
which of the two is meant; a dot before it does. -/

namespace RegisterMachine
namespace Cli

/-- A path, as it is given on the command line. -/
abbrev Path := Text

namespace Path

/-- The components of a path, empty ones included. -/
def components (p : Path) : List Text :=
  Text.pieces (· == '/') p

/-- Whether a component says nothing about where a path leads. -/
def isIdle (component : Text) : Bool :=
  component.isEmpty || component == ['.']

/-- Whether a path stands for the standard stream. -/
def isStream (p : Path) : Bool :=
  match p.components with
  | [] => false
  | first :: rest => first == ['-'] && rest.all isIdle

/-- What a path is called in status lines. -/
def target (p : Path) : Text :=
  if p.isStream then "standard stream".toList else "target ".toList ++ p

end Path
end Cli
end RegisterMachine
