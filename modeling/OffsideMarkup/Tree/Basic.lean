/-
OffsideMarkup.Tree.Basic — the syntax of a file.

The types follow the grammar, so a tree that could not have been read cannot be written down: only
an element has lines under it, a modifier chain holds literals and a class chain holds templates,
and between two items of a chain there is a dot.

A line is a frame, its indentation and its end, around what it declares. `findings` is what the
grammar of that one line had to say about it. Where the line stands in the file is a matter of the
file, and so is the warning about it.
-/
import OffsideMarkup.Tree.Leaf

namespace OffsideMarkup

/-! ## 1. Parts of lines -/

/-- Items with dots between them, never none. -/
structure Chain (α : Type) where
  head : α
  tail : List (Leaf × α)
  deriving Repr, Inhabited, DecidableEq

/-- The items of a chain without the dots. -/
def Chain.items {α : Type} (c : Chain α) : List α := c.head :: c.tail.map (·.2)

/-- A hole in a text: a path in double braces, with a text to show when the path leads nowhere. -/
structure Mustache where
  opening : Leaf
  path : Chain Leaf
  fallback : Option (Leaf × Leaf)
  closing : Leaf
  deriving Repr, Inhabited, DecidableEq

/-- A piece of a template. -/
inductive TemplatePart
  | literal (text : Leaf)
  | mustache (hole : Mustache)
  deriving Repr, Inhabited, DecidableEq

/-- Text with holes in it. An empty template still stands somewhere. -/
structure Template where
  start : Location
  parts : List TemplatePart
  deriving Repr, Inhabited, DecidableEq

/-- The value of an attribute or property: one hole by itself, or a template. -/
inductive Value
  | mustache (hole : Mustache)
  | template (text : Template)
  deriving Repr, Inhabited, DecidableEq

/-- What names an element: its tag, its classes and the name it is referred to by. -/
structure Tag where
  sigil : Leaf
  name : Leaf
  classes : Option (Leaf × Chain Template)
  reference : Option (Leaf × Leaf)
  deriving Repr, Inhabited, DecidableEq

/-- An attribute, or a property, which may name the event that writes it back. -/
structure Attribute where
  sigil : Leaf
  binding : Leaf
  trigger : Option (Leaf × Leaf)
  value : Option (Leaf × Value)
  deriving Repr, Inhabited, DecidableEq

/-- The sigil tells a property from an attribute. -/
def Attribute.isProperty (a : Attribute) : Bool := a.sigil.kind == .percentSign

/-- A handler for an event, with the modifiers under which it is called. -/
structure Handler where
  sigil : Leaf
  event : Leaf
  modifiers : Option (Leaf × Chain Leaf)
  equals : Leaf
  action : Leaf
  parameter : Option (Leaf × Template)
  deriving Repr, Inhabited, DecidableEq

/-- What a line without lines under it declares. -/
inductive Body
  /-- A comment, a blank line, or a line that could not be read. A last line of nothing but space
  has no comment either. -/
  | comment (text : Option Leaf)
  | attribute (a : Attribute)
  | handler (h : Handler)
  | text (sigil : Leaf) (content : Template)
  | mountingPoint (sigil : Leaf) (name : Leaf)
  deriving Repr, Inhabited, DecidableEq

/-! ## 2. Lines -/

/-- What every line has: where it starts, the indentation, the line break or the end of the text,
and the findings of its own grammar. -/
structure Frame where
  start : Location
  indent : Option Leaf
  endOfLine : Leaf
  findings : List Diagnostic
  deriving Repr, Inhabited, DecidableEq

/-- UTF-16 units of the indentation. -/
def Frame.level (f : Frame) : Nat := f.indent.elim 0 (·.extent.length)

/-- One line by itself. -/
inductive Row
  | simple (frame : Frame) (body : Body)
  | element (frame : Frame) (tag : Tag)
  deriving Repr, Inhabited, DecidableEq

/-- A line with the lines nested in it. -/
inductive Line
  | simple (frame : Frame) (body : Body)
  | element (frame : Frame) (tag : Tag) (children : List Line)
  deriving Repr, Inhabited

/-- Nothing but space stands on the line. -/
def Body.isBlank : Body → Bool
  | .comment none => true
  | .comment (some words) => words.source.isEmpty
  | _ => false

namespace Row

def frame : Row → Frame
  | simple f _ => f
  | element f _ => f

def level (r : Row) : Nat := r.frame.level

def isBlank : Row → Bool
  | simple _ b => b.isBlank
  | element _ _ => false

end Row

namespace Line

def frame : Line → Frame
  | simple f _ => f
  | element f _ _ => f

def level (l : Line) : Nat := l.frame.level

def isBlank : Line → Bool
  | simple _ b => b.isBlank
  | element _ _ _ => false

/-- The line by itself. -/
def row : Line → Row
  | simple f b => .simple f b
  | element f t _ => .element f t

def children : Line → List Line
  | simple _ _ => []
  | element _ _ ls => ls

/-- The zero-based number of the line in the text. -/
def lineNumber (l : Line) : Nat := l.frame.start.line

mutual
/-- The frame of the last line that is nested in this one, or of the line itself. -/
def lastFrame : Line → Frame
  | simple f _ => f
  | element f _ ls => lastFrameOf f ls

/-- The frame of the last line of a list with all that is nested in it; `own` if there is none. -/
def lastFrameOf (own : Frame) : List Line → Frame
  | [] => own
  | l :: ls => lastFrameOf (lastFrame l) ls
end

end Line

/-! ## 3. Files -/

/-- Which dialect a file is in. Only one has event modifiers and a host that can be asked. -/
inductive Variant
  | unknown | html
  deriving DecidableEq, Repr, Inhabited

/-- A file that has been read. -/
structure SourceFile where
  variant : Variant
  lines : List Line
  endOfFile : Leaf
  deriving Repr, Inhabited

end OffsideMarkup
