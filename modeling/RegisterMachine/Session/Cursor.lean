import RegisterMachine.Session.Script

/-! # Reading a text of commands

`Script.ofText` cuts a text of commands all at once.  A cursor reads it one command at a time: it
keeps the text as it is, and the number of bytes up to which it has been read.  A read looks at the
characters from there up to the next one that ends a command, and moves past that one, whether it
is there or not; so after the last command the cursor may stand one byte past the end of the
text. -/

namespace RegisterMachine
namespace Script

/-- A text of commands and how far it has been read. -/
structure Cursor where
  /-- All commands, read or not. -/
  text : Text
  /-- The number of bytes that have been read. -/
  position : Nat
deriving DecidableEq, Repr

/-- A byte index that is inside of a character. -/
structure Cursor.Misplaced where
  /-- The index. -/
  position : Nat
deriving DecidableEq, Repr

namespace Cursor

/-- A text of commands of which nothing has been read. -/
def ofText (t : Text) : Cursor where
  text := t
  position := 0

/-- The byte index at which a command ends that goes on with these characters. -/
def stop (position : Nat) : Text → Nat
  | [] => position
  | c :: rest => if endsCommand c then position else stop (position + c.utf8Size) rest

/-- Reads once: the next command, if there is one, and the cursor behind it. -/
def read (r : Cursor) : Except Misplaced (Option Text × Cursor) :=
  if Text.byteLength r.text ≤ r.position then .ok (none, r)
  else
    match Text.splitAtByte? r.text r.position with
    | none => .error ⟨r.position⟩
    | some (_, unread) =>
      let last := stop r.position unread
      .ok (Text.slice? r.text r.position last, { r with position := last + 1 })

/-- Reads a number of times, and gives what each read gave. -/
def reads (r : Cursor) : Nat → Except Misplaced (List (Option Text) × Cursor)
  | 0 => .ok ([], r)
  | count + 1 =>
    match r.read with
    | .error e => .error e
    | .ok (found, next) =>
      match next.reads count with
      | .error e => .error e
      | .ok (others, last) => .ok (found :: others, last)

end Cursor
end Script
end RegisterMachine
