/-
OffsideMarkup.Diagnostic.Window — which columns of the lines in a report are shown.

All lines of a report are shown through one window, so that they stay aligned. Blanks that all of
them begin with are left out when there are many. Only when what remains is still too long are
lines cut at the right, and then the window is placed by what has to be seen: the marks with their
captions if they fit, otherwise the marks alone.

A tab is as wide as four blanks and gives no place to a mark, so captions may end within the blanks;
then there is no window for lines that are too long.
-/

namespace OffsideMarkup

/-- What the lines of a report take up, in columns. -/
structure Expanse where
  /-- Blanks that every line begins with. -/
  indent : Nat
  /-- Where the first mark begins. -/
  marksStart : Nat
  /-- Where the last mark ends. -/
  marksStop : Nat
  /-- Where the last caption ends. -/
  captionsStop : Nat
  /-- The length of the longest line. -/
  longest : Nat

/-- The columns that are shown. -/
structure Window where
  /-- The first column. -/
  start : Nat
  /-- The column behind the last one of a line that is too long. -/
  stop : Nat
  /-- A line that ends before this column counts as whole. -/
  wholeTo : Nat
  /-- How many columns there are. -/
  room : Nat

namespace Window

/-- Columns kept free beside what has to be seen, for dots and a look at what is near. -/
def margin : Nat := 6

/-- So many blanks may stand in front of all lines and of the margin. -/
def blanksAllowed : Nat := 20

/-- When there are more, so many of them are shown. -/
def blanksKept : Nat := 16

/-- What has to be seen with the margins around it. -/
def withMargins (e : Expanse) : Expanse :=
  { e with
    indent := e.indent - margin
    marksStart := e.marksStart - margin
    marksStop := e.marksStop + margin
    captionsStop := e.captionsStop + margin }

/-- The start and the stop of a window for lines that are too long. -/
def tightBounds (e : Expanse) (room : Nat) : Nat × Nat :=
  if e.captionsStop - e.indent ≤ room then (e.indent, e.indent + room)
  else if e.captionsStop - e.marksStart ≤ room then
    let start := e.marksStart - (room - (e.captionsStop - e.marksStart)) / 2
    (start, start + room)
  else if e.marksStop - e.marksStart ≤ room then
    let start := e.marksStart - (room - (e.marksStop - e.marksStart)) / 5 * 2
    (start, start + room)
  else (e.marksStart, e.marksStop)

/-- The start and the stop of the window. -/
def bounds? (e : Expanse) (room : Nat) : Option (Nat × Nat) :=
  let start := if e.indent > blanksAllowed then e.indent - blanksKept else 0
  let stop := max e.longest start
  if stop - start ≤ room then some (start, stop)
  else if e.captionsStop < e.indent then none
  else some (tightBounds e room)

/-- The window for lines on a screen with so much room. Where it ends with the margin of what has to
be seen, a line may reach into the margin without being cut. -/
def ofExpanse? (e : Expanse) (room : Nat) : Option Window := do
  let e := withMargins e
  let (start, stop) ← bounds? e room
  let wholeTo := if stop = e.marksStop ∨ stop = e.captionsStop then stop - margin else stop
  return ⟨start, stop, wholeTo, room⟩

/-- How much of a line of some length is left out in front. -/
def skipped (w : Window) (length : Nat) : Nat := min w.start length

/-- How much of a line of some length is shown. -/
def shown (w : Window) (length : Nat) : Nat :=
  (if length - w.start ≤ w.room then length else min length w.stop) - w.skipped length

/-- Lines are cut in front. -/
def cutsStart (w : Window) : Bool := 0 < w.start

/-- A line of some length counts as cut behind. -/
def cutsStop (w : Window) (length : Nat) : Bool :=
  w.wholeTo < length && w.start + w.room < length

end Window

end OffsideMarkup
