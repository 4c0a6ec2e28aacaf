import RegisterMachine.Text.Blank

/-! # Texts as bytes

Files and standard streams hold bytes; what is text among them is encoded in UTF-8.

A place in a text can be given as the number of bytes before it.  Not every number is a place: it
may be inside of a character, or past the end. -/

namespace RegisterMachine
namespace Text

/-- The text that bytes encode, if they encode one. -/
def decode? (bytes : ByteArray) : Option Text :=
  (String.fromUTF8? bytes).map String.toList

/-- The bytes that encode a text. -/
def encode (t : Text) : ByteArray :=
  (String.ofList t).toUTF8

/-- The number of bytes that encode a text. -/
def byteLength : Text → Nat
  | [] => 0
  | c :: rest => c.utf8Size + byteLength rest

/-- What stands before and after a number of bytes, if they are the bytes of whole characters. -/
def splitAtByte? : Text → Nat → Option (Text × Text)
  | t, 0 => some ([], t)
  | [], _ + 1 => none
  | c :: rest, count + 1 =>
    if c.utf8Size ≤ count + 1 then
      (splitAtByte? rest (count + 1 - c.utf8Size)).map fun parts => (c :: parts.1, parts.2)
    else none

/-- The part of a text between two byte indices, if both are places in it. -/
def slice? (t : Text) (start stop : Nat) : Option Text :=
  if start ≤ stop then do
    let (_, after) ← splitAtByte? t start
    let (part, _) ← splitAtByte? after (stop - start)
    return part
  else none

end Text
end RegisterMachine
