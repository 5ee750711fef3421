/-
OffsideMarkup.Document — an open document and the edits an editor sends.

A document is a text with its version, the table of its lines and the tree read from it. `offset`
and `position` go between the positions of editors and bytes. `offset` answers for every position:
a column behind the end of a line means the end of that line, a line behind the end of the text the
end of the text, and a column inside a character the end of that character.

The changes of one update are made one after the other, each on the text that the one before left.
The text is read again when all of them are made.
-/
import OffsideMarkup.Grammar.Offside
import OffsideMarkup.Text.Lines

namespace OffsideMarkup

/-! ## 1. Positions -/

/-- The bytes of a line up to a column: those of the shortest beginning that reaches it. -/
def bytesToColumn (column : Nat) : List Char → Nat
  | [] => 0
  | c :: cs => if column = 0 then 0 else c.utf8Size + bytesToColumn (column - unitWidth c) cs

/-- A line without its break. -/
def dropBreak (line : List Char) : List Char := (line.reverse.dropWhile isLineBreak).reverse

/-- The byte at a position. -/
def offsetIn (text : List Char) (lines : LineStarts) (p : Position) : Nat :=
  match lines.line? p.line with
  | none => byteLength text
  | some line =>
    line.start + bytesToColumn p.column (dropBreak (sliceBytes line.start line.stop text))

/-- The position of a byte. A byte behind the end of the text means the end; inside a character
there is no position. -/
def position? (text : List Char) (lines : LineStarts) (offset : Nat) : Option Position :=
  let offset := min offset (byteLength text)
  if isBoundary offset text then
    let line := lines.lineOf offset
    let start := ((lines.line? line).map Span.start).getD offset
    some ⟨line, unitLength (sliceBytes start offset text)⟩
  else none

/-! ## 2. Changes -/

/-- An edit: a new text for a region, or for everything. -/
structure Change where
  region : Option Region
  text : List Char
  deriving DecidableEq, Repr, Inhabited

/-- A text with the bytes between two ends replaced. -/
def splice (start stop : Nat) (new text : List Char) : List Char :=
  takeBytes start text ++ new ++ dropBytes stop text

/-- A text after an edit. The ends of a region may be given in either order. -/
def Change.apply (c : Change) (text : List Char) : List Char :=
  match c.region with
  | none => c.text
  | some r =>
    let lines := LineStarts.ofText text
    let a := offsetIn text lines r.start
    let b := offsetIn text lines r.stop
    splice (min a b) (max a b) c.text text

/-! ## 3. Documents -/

/-- An open document. -/
structure Document where
  uri : String
  language : String
  version : Int
  text : List Char
  lines : LineStarts
  tree : SourceFile
  deriving Repr, Inhabited

namespace Document

/-- Opens a document. -/
def create (uri language : String) (version : Int) (text : List Char) : Document :=
  ⟨uri, language, version, text, .ofText text, .ofText .html text⟩

/-- Makes changes, one after the other. -/
def update (d : Document) (changes : List Change) (version : Int) : Document :=
  let text := changes.foldl (fun text c => c.apply text) d.text
  { d with
    version := version
    text := text
    lines := .ofText text
    tree := .ofText d.tree.variant text }

def offset (d : Document) (p : Position) : Nat := offsetIn d.text d.lines p

def position? (d : Document) (offset : Nat) : Option Position :=
  OffsideMarkup.position? d.text d.lines offset

end Document

end OffsideMarkup
