/-! # Diagnostics

What a user is told about an error that ends a command: a stable code to look it up by, a
message, and sometimes a hint.  Each family of errors is a type of its own that says what went
wrong; its wording is one function into `Diagnostic`. -/

namespace RegisterMachine

/-- An error as it is reported. -/
structure Diagnostic where
  /-- Names the kind of the error, independently of its wording. -/
  code : String
  /-- Says what went wrong. -/
  message : String
  /-- Says what to do about it, where that is known. -/
  help : Option String := none
deriving DecidableEq, Repr

end RegisterMachine
