/-
OffsideMarkup.Editor.Analysis — an open document with what is known about it.

The folds of a document are kept once they have been computed, until the next edit. A request that
the editor has cancelled gets no answer, except where there was nothing left to compute: folds that
are kept, and a file without lines.
-/
import OffsideMarkup.Document
import OffsideMarkup.Editor.Fault
import OffsideMarkup.Editor.Fold
import OffsideMarkup.Editor.Highlight
import OffsideMarkup.Editor.Outline

namespace OffsideMarkup

/-- An open document, and its folds if they are known. -/
structure Analysis where
  document : Document
  folds : Option (List Fold)
  deriving Repr, Inhabited

namespace Analysis

/-- A document about which nothing is known yet. -/
def create (document : Document) : Analysis := ⟨document, none⟩

def tree (a : Analysis) : SourceFile := a.document.tree

/-- Edits the document, which makes everything known about it void. -/
def update (a : Analysis) (changes : List Change) (version : Int) : Analysis :=
  .create (a.document.update changes version)

/-- The folds, and the analysis that knows them. -/
def foldsUnless (a : Analysis) (cancelled : Bool) : Except Fault (List Fold) × Analysis :=
  match a.folds with
  | some folds => (.ok folds, a)
  | none =>
    if cancelled then (.error .requestCancelled, a)
    else (.ok a.tree.folds, { a with folds := some a.tree.folds })

/-- An answer worked out line by line, which a cancelled request stops in front of the first. -/
def lineByLine {α : Type} (a : Analysis) (cancelled : Bool) (answer : SourceFile → α) :
    Except Fault α :=
  if cancelled && !a.tree.lines.isEmpty then .error .requestCancelled else .ok (answer a.tree)

/-- The pieces of the text by what they mean. -/
def highlightsUnless (a : Analysis) (cancelled : Bool) : Except Fault (List RelativeHighlight) :=
  a.lineByLine cancelled fun tree => Highlight.relative tree.highlights

/-- What the document declares. -/
def symbolsUnless (a : Analysis) (cancelled : Bool) : Except Fault (List Symbol) :=
  a.lineByLine cancelled SourceFile.symbols

end Analysis

end OffsideMarkup
