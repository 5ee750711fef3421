/-
OffsideMarkup.Protocol.Frame — how messages follow each other on a stream.

A message is a header, an empty line and a body. Of the header only the length of the body in bytes
matters; its name may be written in any case.
-/
import OffsideMarkup.Text.Number

namespace OffsideMarkup.Frame

/-- A body with the header in front of it. -/
def enclose (body : String) : String :=
  "Content-Length: " ++ toString body.utf8ByteSize ++ "\r\n\r\n" ++ body

/-- The length that a line of a header gives, if it gives one. -/
def length? (line : String) : Option Nat :=
  let name := line.toList.takeWhile (· != ':')
  let value := (line.toList.dropWhile (· != ':')).drop 1
  if name.map Char.toLower = "content-length".toList then
    readNumber? longBound (value.filter fun c => !c.isWhitespace)
  else none

end OffsideMarkup.Frame
