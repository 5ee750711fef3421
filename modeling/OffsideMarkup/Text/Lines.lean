/-
OffsideMarkup.Text.Lines — where the lines of a text start.

Lines end where the lexer ends them. A carriage return and the line feed behind it are one break.
The table is the list of bytes at which lines start and the length of the text; a line is the
stretch from its start to the next, break included.
-/
import OffsideMarkup.Text.Location

namespace OffsideMarkup

/-- The starts of lines behind the first. `here` is the byte the text starts at. -/
def startsBehind (here : Nat) : List Char → List Nat
  | [] => []
  | '\r' :: '\n' :: cs => (here + 2) :: startsBehind (here + 2) cs
  | c :: cs =>
    if isLineBreak c then (here + c.utf8Size) :: startsBehind (here + c.utf8Size) cs
    else startsBehind (here + c.utf8Size) cs

/-- Where the lines of a text start. -/
structure LineStarts where
  starts : List Nat
  /-- Bytes of the text. -/
  length : Nat
  deriving DecidableEq, Repr, Inhabited

namespace LineStarts

def ofText (text : List Char) : LineStarts := ⟨0 :: startsBehind 0 text, byteLength text⟩

/-- The number of lines. A text that ends in a break has an empty last line. -/
def count (s : LineStarts) : Nat := s.starts.length

/-- The bytes of a line with its break. -/
def line? (s : LineStarts) (n : Nat) : Option Span := do
  let start ← s.starts[n]?
  return ⟨start, s.starts[n + 1]?.getD s.length⟩

/-- The line that a byte falls on; behind the end of the text that is the last one. -/
def lineOf (s : LineStarts) (offset : Nat) : Nat :=
  (s.starts.takeWhile (· ≤ offset)).length - 1

end LineStarts

end OffsideMarkup
