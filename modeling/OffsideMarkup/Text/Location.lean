/-
OffsideMarkup.Text.Location — points and stretches of a text.

Three vocabularies meet here. An editor names a point by line and UTF-16 column (`Position`). A
byte range (`Span`) is what a diagnostic carries. A `Location` is what the lexer keeps while it
reads: the byte offset, the line, the column in that line and the units since the start of the
text. `Location.after` says how text on one line moves a location and `Location.nextLine` how a
line break does; nothing else moves one, so every location of a token is one of these applied to
an earlier one.
-/
import OffsideMarkup.Text.Character

namespace OffsideMarkup

/-! ## 1. Points and stretches -/

/-- A zero-based line and a zero-based UTF-16 column in it. -/
structure Position where
  line : Nat
  column : Nat
  deriving DecidableEq, Repr, Inhabited

/-- Reading order. -/
def Position.le (p q : Position) : Bool :=
  p.line < q.line || (p.line == q.line && p.column ≤ q.column)

/-- A stretch between two positions. -/
structure Region where
  start : Position
  stop : Position
  deriving DecidableEq, Repr, Inhabited

/-- A stretch of bytes. -/
structure Span where
  start : Nat
  stop : Nat
  deriving DecidableEq, Repr, Inhabited

/-- A span from untrusted ends: there is none that stops before it starts. -/
def Span.ofEnds? (start stop : Nat) : Option Span :=
  if start ≤ stop then some ⟨start, stop⟩ else none

/-! ## 2. Locations -/

/-- A point of a text in all its coordinates. -/
structure Location where
  /-- Bytes since the start of the text. -/
  offset : Nat
  line : Nat
  /-- UTF-16 units since the start of the line. -/
  column : Nat
  /-- UTF-16 units since the start of the text. -/
  units : Nat
  deriving DecidableEq, Repr, Inhabited

namespace Location

/-- The start of a text. -/
def origin : Location := ⟨0, 0, 0, 0⟩

/-- Where a text without a line break ends that starts here. -/
def after (l : Location) (cs : List Char) : Location :=
  { l with
    offset := l.offset + byteLength cs
    column := l.column + unitLength cs
    units := l.units + unitLength cs }

/-- The same byte counted as the start of the next line. -/
def nextLine (l : Location) : Location :=
  { l with line := l.line + 1, column := 0 }

/-- What an editor calls this point. -/
def position (l : Location) : Position := ⟨l.line, l.column⟩

theorem after_nil (l : Location) : l.after [] = l := rfl

theorem after_append (l : Location) (xs ys : List Char) :
    l.after (xs ++ ys) = (l.after xs).after ys := by
  simp [after, byteLength_append, unitLength_append, Nat.add_assoc]

end Location

/-! ## 3. Extents

The stretch of a syntax node, given by two locations. What the editor protocol wants to know of it
is derived, so there is no second account that could disagree. -/

/-- A stretch between two locations. -/
structure Extent where
  start : Location
  stop : Location
  deriving DecidableEq, Repr, Inhabited

namespace Extent

def span (e : Extent) : Span := ⟨e.start.offset, e.stop.offset⟩

/-- UTF-16 units covered. -/
def length (e : Extent) : Nat := e.stop.units - e.start.units

/-- The extent holds a line break. -/
def crossesLine (e : Extent) : Bool := e.stop.line != e.start.line

def isEmpty (e : Extent) : Bool := e.start.offset == e.stop.offset

/-- The column just past the extent on its first line; an extent that leaves its first line is
taken to end where it starts. -/
def endColumn (e : Extent) : Nat :=
  if e.crossesLine then e.start.column else e.stop.column

/-- The column just past the extent. One that leaves its first line has its length in this place. -/
def trailingColumn (e : Extent) : Nat :=
  if e.crossesLine then e.length else e.stop.column

/-- The extent on its first line, for an editor to underline. -/
def region (e : Extent) : Region :=
  ⟨e.start.position, ⟨e.start.line, e.endColumn⟩⟩

end Extent

end OffsideMarkup
