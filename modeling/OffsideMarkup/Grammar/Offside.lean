/-
OffsideMarkup.Grammar.Offside — which lines are nested in which.

An element opens a block if the next line with content is indented further than the element. That
indentation is the level of the block, and the block goes on as long as lines with content are
indented at least that far. A blank line goes with the line with content after it, so a block never
ends in blank lines, and those at the end of the file belong to the file.

`nest` says this by cutting: from the lines behind an element it cuts off those of its block, nests
them by themselves, and goes on behind them.

A line with content that is indented further than its block gets a warning, which stands before the
findings of the line itself.
-/
import OffsideMarkup.Grammar.Row
import OffsideMarkup.Tree.Node

namespace OffsideMarkup

/-! ## 1. Nesting -/

/-- The indentation of the first row with content; 0 if there is none. -/
def Row.ahead : List Row → Nat
  | [] => 0
  | r :: rs => if r.isBlank then Row.ahead rs else r.level

/-- How many rows belong to a block of a level that starts with the first of them. -/
def Row.blockLength (level : Nat) : List Row → Nat
  | [] => 0
  | r :: rs => if level ≤ Row.ahead (r :: rs) then Row.blockLength level rs + 1 else 0

/-- Rows as lines with the lines nested in them. -/
def Line.nest : List Row → List Line
  | [] => []
  | .simple f b :: rows => .simple f b :: Line.nest rows
  | .element f t :: rows =>
    let level := Row.ahead rows
    if f.level < level then
      let n := Row.blockLength level rows
      .element f t (Line.nest (rows.take n)) :: Line.nest (rows.drop n)
    else .element f t [] :: Line.nest rows
termination_by rows => rows.length
decreasing_by
  all_goals
    simp only [List.length_cons, List.length_take, List.length_drop]
    omega

/-! ## 2. Findings about a file -/

/-- The level of a block: the indentation of its first line with content. -/
def Line.blockLevel : List Line → Nat
  | [] => 0
  | l :: ls => if l.isBlank then Line.blockLevel ls else l.level

/-- The warning for a line that is indented further than its block. `owner` is the element whose
block it is. -/
def Line.misplaced (level : Nat) (owner : Option Tag) (l : Line) : List Diagnostic :=
  match l.frame.indent with
  | none => []
  | some indent =>
    if level < l.level ∧ ¬ l.isBlank then
      let warning := Diagnostic.ofExtent .unexpectedIndentation [toString level, toString l.level]
        indent.extent
      match owner with
      | none => [warning]
      | some tag => [warning.withRelated tag.node.label.extent "enclosing element declared here"]
    else []

mutual
/-- The findings about a line of a block and the lines nested in it, in document order. -/
def Line.diagnostics (level : Nat) (owner : Option Tag) : Line → List Diagnostic
  | .simple f b => Line.misplaced level owner (.simple f b) ++ f.findings
  | .element f t ls =>
    Line.misplaced level owner (.element f t ls) ++ f.findings
      ++ Line.diagnosticsOf (Line.blockLevel ls) (some t) ls

def Line.diagnosticsOf (level : Nat) (owner : Option Tag) : List Line → List Diagnostic
  | [] => []
  | l :: ls => l.diagnostics level owner ++ Line.diagnosticsOf level owner ls
end

/-- The findings about a file. Its own lines form a block of level 0 that no element owns. -/
def SourceFile.diagnostics (f : SourceFile) : List Diagnostic := Line.diagnosticsOf 0 none f.lines

/-! ## 3. Reading a file -/

/-- Reads a file. Malformed lines do not fail; they are reported and stay in the tree. -/
def SourceFile.ofText (variant : Variant) (text : List Char) : SourceFile :=
  let here := ((tokens text).getLast?.map Token.stop).getD .origin
  ⟨variant, Line.nest (Row.ofText text), ⟨.endOfText, here, [], false⟩⟩

end OffsideMarkup
