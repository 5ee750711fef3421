/-
OffsideMarkup.Tree.Leaf — the leaves of a syntax tree.

A leaf is a token, or a literal: a stretch of tokens that the grammar reads as one text. It keeps
the source it covers, leading space included, and where that starts. Where it stops follows from
those two, so for a leaf the width in bytes, in units and on the screen cannot drift apart.

A leaf that the grammar needs and the line does not have is `missing`; it covers nothing and stands
where it was looked for.
-/
import OffsideMarkup.Token
import OffsideMarkup.Diagnostic.Basic

namespace OffsideMarkup

/-- A token or a literal of a syntax tree. -/
structure Leaf where
  kind : Kind
  start : Location
  /-- The text covered, with the space in front. -/
  source : List Char
  /-- The leaf was looked for and not found. -/
  missing : Bool
  deriving DecidableEq, Repr, Inhabited

namespace Leaf

/-! ## 1. Making leaves -/

def ofToken (t : Token) : Leaf := ⟨t.kind, t.start, t.source, false⟩

/-- One literal out of the tokens of a line, which may be none. -/
def literal (here : Location) (ts : List Token) : Leaf :=
  ⟨.literal, here, ts.flatMap Token.source, false⟩

/-- A leaf of a kind that is not there. -/
def absent (kind : Kind) (here : Location) : Leaf := ⟨kind, here, [], true⟩

/-! ## 2. Where a leaf is -/

/-- Just past the leaf. A line break is the only leaf that ends on another line. -/
def stop (l : Leaf) : Location :=
  if l.kind = .lineBreak then (l.start.after l.source).nextLine else l.start.after l.source

def extent (l : Leaf) : Extent := ⟨l.start, l.stop⟩

theorem stop_ofToken (t : Token) : (ofToken t).stop = t.stop := rfl

theorem stop_absent (kind : Kind) (here : Location) (h : kind ≠ .lineBreak) :
    (absent kind here).stop = here := by
  simp [absent, stop, h, Location.after_nil]

/-! ## 3. What a leaf says -/

/-- The text without the space around it. -/
def text (l : Leaf) : List Char := trimInline l.source

/-- UTF-16 units of the space in front. -/
def leadingWidth (l : Leaf) : Nat := unitLength (l.source.takeWhile isInlineSpace)

/-- The part of the leaf behind its leading space, on its first line. -/
def contentRegion (l : Leaf) : Region :=
  let column := l.start.column + min l.leadingWidth l.extent.length
  ⟨⟨l.start.line, column⟩, ⟨l.start.line, max l.extent.endColumn column⟩⟩

end Leaf

end OffsideMarkup
