/-
OffsideMarkup.Diagnostic.Render — a diagnostic as a report for a terminal.

    error[E0005]: Non-empty string expected.
     --> a.txt:1:6
      |
    1 | >a.x
      |      ^ here
      |

The first line says what is wrong, the second where, and below stands the line in question with
marks under it. Places that explain the finding come first, each with its own line. Of the lines
between two marked ones a few are shown; of more only the outermost two.

The lines are those between line feeds, as a terminal shows them, and a mark stands at the columns
its place takes there: a control, a tab among them, takes none. The text is shown through a window,
with every tab as four blanks, and what is left out in front moves the marks to the left, if need be
over the bar.
-/
import OffsideMarkup.Diagnostic.Basic
import OffsideMarkup.Diagnostic.Window
import OffsideMarkup.Text.Column
import OffsideMarkup.Text.Row

namespace OffsideMarkup

/-! ## 1. Marks -/

/-- How a severity is called in a report. -/
def Severity.name : Severity → String
  | .error => "error"
  | .warning => "warning"
  | .information => "info"
  | .hint => "help"

/-- The character that marks the place of a finding. -/
def Severity.marker : Severity → Char
  | .error => '^'
  | _ => '-'

/-- A place of the text that is to be marked. -/
structure Remark where
  span : Span
  marker : Char
  /-- What stands in front of the caption. -/
  heading : List Char
  caption : List Char

/-- A remark on a line, at the columns it takes there. -/
structure Mark where
  start : Nat
  stop : Nat
  marker : Char
  heading : List Char
  caption : List Char

/-- The places a diagnostic has to do with. -/
def Diagnostic.remarks (d : Diagnostic) : List Remark :=
  ⟨d.span, d.severity.marker, [], "here".toList⟩
    :: d.related.map fun r => ⟨r.span, '-', "note: ".toList, r.note.toList⟩

/-! ## 2. Lines -/

/-- The lines of a text between line feeds, and how many bytes each break takes. A text that ends in
a break has no line behind it. -/
def terminalLines : List Char → List (List Char × Nat)
  | [] => []
  | '\r' :: '\n' :: cs => ([], 2) :: terminalLines cs
  | c :: cs =>
    if c = '\n' then ([], 1) :: terminalLines cs
    else
      match terminalLines cs with
      | [] => [([c], 0)]
      | (line, broken) :: others => (c :: line, broken) :: others

/-- A line of a text with its place and what is to be marked on it. -/
structure MarkedLine where
  /-- The number of the line, counted from one. -/
  number : Nat
  /-- The byte it starts at. -/
  start : Nat
  text : List Char
  /-- Bytes of its break. -/
  broken : Nat
  marks : List Mark

namespace MarkedLine

/-- The byte behind the line. -/
def stop (l : MarkedLine) : Nat := l.start + byteLength l.text

/-- The byte behind the break of the line, or behind the place of one at the end of the text. -/
def reach (l : MarkedLine) : Nat := l.stop + max l.broken 1

/-- What stands on the line before a byte. -/
def before (l : MarkedLine) (offset : Nat) : List Char := takeBytes (offset - l.start) l.text

end MarkedLine

/-- A remark at its columns of a line. There is at least one. -/
def Remark.markOn (r : Remark) (l : MarkedLine) : Mark :=
  let start := columnsOf 0 (l.before r.span.start)
  let stop := columnsOf 0 (l.before r.span.stop)
  ⟨start, if start = stop then start + 1 else stop, r.marker, r.heading, r.caption⟩

/-- The lines from a byte and a number on, each with the remarks that end on it. -/
def markLines (number start : Nat) (remarks : List Remark) :
    List (List Char × Nat) → List MarkedLine
  | [] => []
  | (text, broken) :: others =>
    let line : MarkedLine := ⟨number, start, text, broken, []⟩
    let (here, later) := remarks.partition (·.span.stop ≤ line.reach)
    { line with marks := here.map (·.markOn line) }
      :: markLines (number + 1) (line.stop + broken) later others

/-- The lines of a text from that of the first remark to that of the last one. -/
def remarkedLines (text : List Char) (remarks : List Remark) : List MarkedLine :=
  let first := remarks.foldl (fun n r => min n r.span.start) (byteLength text)
  let last := remarks.foldl (fun n r => max n r.span.stop) 0
  let front := takeBytes first text
  let started := (front.reverse.takeWhile (· != '\n')).length
  let start := byteLength (front.take (front.length - started))
  let stop := last + byteLength ((dropBytes last text).takeWhile (· != '\n'))
  markLines (front.count '\n' + 1) start
    (remarks.mergeSort fun r s => r.span.start ≤ s.span.start)
    (terminalLines (sliceBytes start stop text))

/-- Few lines, or the outermost of them with nothing between. -/
def outermost (lines : List MarkedLine) : List (Option MarkedLine) :=
  if lines.length ≤ 3 then lines.map some else [lines.head?, none, lines.getLast?]

/-- The lines that a report shows, `waiting` being those that stand between two marked ones if there
is another one to come. -/
def foldLines (waiting : List MarkedLine) : List MarkedLine → List (Option MarkedLine)
  | [] => []
  | l :: ls =>
    if l.marks.isEmpty then foldLines (waiting ++ [l]) ls
    else outermost waiting ++ some l :: foldLines [] ls

/-! ## 3. The window -/

/-- How many columns a terminal is taken to have. -/
def terminalWidth : Nat := 140

/-- A character as it is shown. A tab is four blanks; what would turn the direction of the text or
join its neighbours is left out. -/
def shownAs (c : Char) : List Char :=
  if c = '\t' then [' ', ' ', ' ', ' ']
  else if c = '\u200d' || ('\u202a' ≤ c && c ≤ '\u202e') || ('\u2066' ≤ c && c ≤ '\u2069') then
    []
  else [c]

/-- Blanks of any kind in front of a line. -/
def isBlank (c : Char) : Bool := isInlineSpace c && c != '\u200b' && c != '\ufeff' || isLineBreak c

/-- How far the text of a line is indented, if there is text on it. -/
def indentOf? (line : List Char) : Option Nat :=
  if line.all isBlank then none
  else some (widthBy (fun c => if c = '\t' then 4 else 1) (line.takeWhile isBlank))

/-- What the lines take up. -/
def expanseOf (lines : List MarkedLine) : Expanse :=
  let marks := lines.flatMap (·.marks)
  { indent := (lines.filterMap (indentOf? ·.text)).min?.getD 0
    marksStart := (marks.map Mark.start).min?.getD 0
    marksStop := (marks.map Mark.stop).foldl max 0
    captionsStop := (marks.map fun m => m.stop + m.caption.length + 1).foldl max 0
    longest := (lines.map fun l => byteLength l.text).foldl max 0 }

/-! ## 4. Rows -/

/-- How many digits a number has. -/
def digitCount (n : Nat) : Nat := (toString n).length

/-- What stands to the left of a text with numbers of so many digits: blanks, a bar and a blank. -/
def gutterWidth (digits : Nat) : Nat := digits + 3

/-- A row with nothing but the bar. -/
def barRow (digits : Nat) : List Char := Row.write [] (digits + 1) ['|']

/-- A line of the text behind its number. Dots stand for what is cut off. -/
def sourceRow (w : Window) (digits : Nat) (l : MarkedLine) : List Char :=
  let text := l.text.flatMap shownAs
  let length := byteLength text
  let shown := takeColumns (w.shown length) (text.drop (w.skipped length))
  let number := (toString l.number).toList
  let row := Row.write (barRow digits) (digits - number.length) number
  let row := Row.write row (gutterWidth digits) shown
  let row := if w.cutsStart then Row.write row (gutterWidth digits) ['.', '.', '.'] else row
  if w.cutsStop length then
    Row.write row (gutterWidth digits + columnsOf 1 shown - 3) ['.', '.', '.']
  else row

/-- Two marks share a column if the first one were longer by so much. -/
def Mark.overlaps (m n : Mark) (more : Nat) : Bool :=
  (n.start ≤ m.start && m.start < n.stop) || (m.start ≤ n.start && n.start < m.stop + more)

/-- Marks with the depth of their captions, from the last one of a line to the first. A caption goes
deeper than that of the mark before it when the two would run into each other. -/
def captionDepths (depth : Nat) : List Mark → List (Nat × Mark)
  | [] => []
  | m :: ms =>
    let depth := if depth = 0 && ms.any (·.overlaps m 0) then 1 else depth
    let crowded := ms.any fun n => n.overlaps m (n.caption.length + 2)
    (depth, m) :: captionDepths (if crowded then depth + 1 else depth) ms

/-- A text at a place of the rows under a line. -/
structure Stroke where
  row : Nat
  column : Nat
  text : List Char

/-- The bars that lead from a mark to a caption further down. -/
def leadStrokes (code skipped : Nat) (m : Nat × Mark) : List Stroke :=
  (List.range m.1).map fun i => ⟨i + 1, code + m.2.start - skipped, ['|']⟩

/-- The caption: beside the marks, or under their first one. -/
def captionStroke (code skipped : Nat) (m : Nat × Mark) : Stroke :=
  let text := m.2.heading ++ m.2.caption
  if m.1 = 0 then ⟨0, code + (m.2.stop + 1 - skipped), text⟩
  else ⟨m.1 + 1, code + (m.2.start - skipped), text⟩

/-- The marks themselves. -/
def markStroke (code skipped : Nat) (m : Nat × Mark) : Stroke :=
  let first := code + m.2.start - skipped
  let last := code + m.2.stop - 1 - skipped
  ⟨0, first, List.replicate (last - first + 1) m.2.marker⟩

/-- The rows under a line of the text. Longer marks are written before shorter ones, so that these
stay in sight. -/
def markRows (w : Window) (digits : Nat) (l : MarkedLine) : List (List Char) :=
  let code := gutterWidth digits
  let text := l.text.flatMap shownAs
  let skipped := columnsOf 1 (text.take (w.skipped (byteLength text)))
  let marks := captionDepths 0 (l.marks.mergeSort fun m n => n.start ≤ m.start)
  let deepest := (marks.map (·.1)).foldl max 0
  let rows := List.replicate (if deepest = 0 then 1 else deepest + 2) (barRow digits)
  let longestFirst := marks.mergeSort fun m n => n.2.stop - n.2.start ≤ m.2.stop - m.2.start
  let strokes := marks.flatMap (leadStrokes code skipped) ++ marks.map (captionStroke code skipped)
    ++ longestFirst.map (markStroke code skipped)
  strokes.foldl (fun rows s => rows.modify s.row (Row.write · s.column s.text)) rows

/-- What a report shows for a line of the text, or for lines that are left out. -/
def lineRows (w : Window) (digits : Nat) : Option MarkedLine → List (List Char)
  | none => [['.', '.', '.']]
  | some l => sourceRow w digits l :: if l.marks.isEmpty then [] else markRows w digits l

/-! ## 5. The report -/

/-- A code in four digits. -/
def codeName (code : Nat) : String :=
  let digits := toString code
  "E" ++ "".pushn '0' (4 - digits.length) ++ digits

/-- The line and the column of a byte on the lines that are shown, both counted from one. -/
def placeOf (lines : List MarkedLine) (offset : Nat) : Nat × Nat :=
  match lines.find? fun l => l.start ≤ offset && offset < l.reach with
  | none => (1, 1)
  | some l => (l.number, (l.before offset).length + 1)

/-- The path of the file and the place in it. -/
def placeRow (digits : Nat) (path : String) (place : Nat × Nat) : List Char :=
  Row.write (Row.write [] digits ['-', '-', '>']) (digits + 4) path.toList
    ++ (":" ++ toString place.1 ++ ":" ++ toString place.2).toList

/-- The lines of the report on a diagnostic about a text in a file, if there is a window for them. -/
def Diagnostic.render? (d : Diagnostic) (path : String) (text : List Char) :
    Option (List String) := do
  let lines := remarkedLines text d.remarks
  let shown := foldLines [] (lines.dropWhile (·.marks.isEmpty))
  let numbers := shown.filterMap (·.map MarkedLine.number)
  let digits := digitCount (numbers.foldl max 0)
  let behind := digitCount ((lines.getLast?.elim 0 MarkedLine.number) + 1)
  let window ← Window.ofExpanse? (expanseOf lines) (terminalWidth - gutterWidth behind)
  let place := placeOf (shown.filterMap id) d.span.start
  let rows := [placeRow digits path place, barRow digits]
    ++ shown.flatMap (lineRows window digits) ++ [barRow digits]
  return (d.severity.name ++ "[" ++ codeName d.code ++ "]: " ++ d.text) :: rows.map String.ofList

end OffsideMarkup
