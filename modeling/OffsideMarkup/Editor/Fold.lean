/-
OffsideMarkup.Editor.Fold — the stretches of lines that an editor may fold away.

An element with lines under it folds, from its own line to the last of them. So does a run: three or
more neighbouring lines of one block that are all comments or all lines of block text. Lines of
inline text form runs as well, which never fold but keep other lines from joining across them; a
blank line, an element and any other line end a run.

Folds come in the order in which they are known: that of an element in front of what is nested in
it, that of a run when the line behind it has been dealt with.
-/
import OffsideMarkup.Tree.Basic

namespace OffsideMarkup

/-! ## 1. Folds and runs -/

/-- What is folded away. -/
inductive FoldKind
  | element | comment | text
  deriving DecidableEq, Repr, Inhabited

/-- A stretch of lines, given by the first and the last of them. -/
structure Fold where
  startLine : Nat
  endLine : Nat
  kind : FoldKind
  deriving DecidableEq, Repr, Inhabited

/-- What the lines of a run have in common. -/
inductive RunKey
  | comment
  | text (sigil : Kind)
  deriving DecidableEq, Repr, Inhabited

/-- What a run of lines like this one is keyed by. Blank lines belong to no run. -/
def Line.runKey? : Line → Option RunKey
  | .simple _ (.comment (some words)) => if words.source.isEmpty then none else some .comment
  | .simple _ (.text sigil _) => some (.text sigil.kind)
  | _ => none

/-- Neighbouring lines with one key. -/
structure Run where
  key : RunKey
  startLine : Nat
  endLine : Nat
  count : Nat
  deriving DecidableEq, Repr, Inhabited

/-- The fewest lines of a run that fold. -/
def Run.shortest : Nat := 3

/-- What a run of lines with a key folds as. -/
def RunKey.foldKind? : RunKey → Option FoldKind
  | .comment => some .comment
  | .text .bar => some .text
  | .text _ => none

/-- The folds of a run, at most one. -/
def Run.folds (r : Run) : List Fold :=
  match r.key.foldKind? with
  | some k => if Run.shortest ≤ r.count then [⟨r.startLine, r.endLine, k⟩] else []
  | none => []

/-- The run that goes on with a line: a longer one if the keys agree, else a new one, or none. -/
def Run.next? (run : Option Run) (l : Line) : Option Run :=
  l.runKey?.map fun key =>
    match run with
    | some r =>
      if r.key = key then { r with endLine := l.lineNumber, count := r.count + 1 }
      else ⟨key, l.lineNumber, l.lineNumber, 1⟩
    | none => ⟨key, l.lineNumber, l.lineNumber, 1⟩

/-- The folds of a run that a line does not go on with. -/
def Run.closed (run : Option Run) (l : Line) : List Fold :=
  match run with
  | some r => if l.runKey? = some r.key then [] else r.folds
  | none => []

/-! ## 2. The folds of a file -/

mutual
/-- The folds of a line and of what is nested in it. -/
def Line.folds : Line → List Fold
  | .simple _ _ => []
  | .element f _ ls =>
    (if ls.isEmpty then []
      else [⟨f.start.line, (Line.lastFrameOf f ls).start.line, .element⟩])
      ++ Line.blockFolds none ls

/-- The folds of the lines of a block, of which `run` is the run just before them. -/
def Line.blockFolds (run : Option Run) : List Line → List Fold
  | [] => run.elim [] Run.folds
  | l :: ls => l.folds ++ Run.closed run l ++ Line.blockFolds (Run.next? run l) ls
end

/-- All folds of a file. -/
def SourceFile.folds (f : SourceFile) : List Fold := Line.blockFolds none f.lines

end OffsideMarkup
