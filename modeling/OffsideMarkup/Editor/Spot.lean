/-
OffsideMarkup.Editor.Spot — what stands under the cursor.

A spot is a node of the syntax tree together with the line it belongs to and the tag of the element
around that line. The spot at a position is the best of those that touch it: a leaf rather than a
composite, then the one with the fewest units, then the first in the text. A position at the end of
a spot still touches it. What is missing, indentation, line breaks, comments and the end of the text
are never under the cursor.

The end of the file is such a node, so the spots of the lines are all there are.
-/
import OffsideMarkup.Tree.Node

namespace OffsideMarkup

/-- A node of a line, with the tag of the element that the line is nested in. -/
structure Spot where
  label : Label
  row : Row
  owner : Option Tag
  deriving Repr, Inhabited

mutual
/-- All spots of a line and of what is nested in it, in the order of the nodes. -/
def Line.spots (owner : Option Tag) : Line → List Spot
  | .simple f b =>
    ((Line.simple f b).node.label :: Rose.preorderAll (Row.simple f b).nodes).map
      (⟨·, .simple f b, owner⟩)
  | .element f t ls =>
    ((Line.element f t ls).node.label :: Rose.preorderAll (Row.element f t).nodes).map
        (⟨·, .element f t, owner⟩)
      ++ Line.spotsOf (some t) ls

def Line.spotsOf (owner : Option Tag) : List Line → List Spot
  | [] => []
  | l :: ls => l.spots owner ++ Line.spotsOf owner ls
end

namespace Spot

/-- Nodes of these kinds, and those that are missing, are never under the cursor. -/
def isSolid (s : Spot) : Bool :=
  !s.label.missing && !s.label.kind.isTrivia && s.label.kind != .endOfText

/-- The spot starts on the line of the position and reaches it. -/
def touches (s : Spot) (p : Position) : Bool :=
  let e := s.label.extent
  e.start.line == p.line && e.start.column ≤ p.column
    && (e.crossesLine || p.column ≤ e.start.column + e.length)

/-- The spot is under the cursor rather than one that comes before it in the text. -/
def beats (s t : Spot) : Bool :=
  (s.label.isLeaf && !t.label.isLeaf)
    || (s.label.isLeaf == t.label.isLeaf && s.label.extent.length < t.label.extent.length)

/-- The best of some spots, the first one where two are as good. -/
def best? (spots : List Spot) : Option Spot :=
  spots.foldl
    (fun best s =>
      match best with
      | none => some s
      | some b => if s.beats b then some s else some b)
    none

end Spot

/-- The spot at a position. -/
def SourceFile.spotAt? (f : SourceFile) (p : Position) : Option Spot :=
  Spot.best? ((Line.spotsOf none f.lines).filter fun s => s.isSolid && s.touches p)

namespace Spot

/-- What a spot says, without the space around it. -/
def text (s : Spot) : List Char := trimInline (s.label.source.getD [])

/-- The name of the element around the line of the spot, if there is one and it has a name. -/
def ownerName? (s : Spot) : Option (List Char) :=
  (s.owner.map (·.name.text)).filter (!·.isEmpty)

end Spot

end OffsideMarkup
