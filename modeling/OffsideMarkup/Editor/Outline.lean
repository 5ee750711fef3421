/-
OffsideMarkup.Editor.Outline — what a file declares, for an editor's outline.

Elements and mounting points are declared; elements nest. A symbol stretches from the start of its
line to the end of the content of the last line nested in it, and shows the name it was given.
-/
import OffsideMarkup.Tree.Basic

namespace OffsideMarkup

/-- What is declared. -/
inductive SymbolKind
  | element | mountingPoint | listMountingPoint
  deriving DecidableEq, Repr, Inhabited

/-- The number that editors know a kind of symbol by: a field, a type parameter, an array. -/
def SymbolKind.number : SymbolKind → Nat
  | .element => 8
  | .mountingPoint => 26
  | .listMountingPoint => 18

/-- A declaration with those nested in it. -/
inductive Symbol where
  | node (name : List Char) (kind : SymbolKind) (region selection : Region)
      (children : List Symbol)
  deriving Repr, Inhabited

namespace Symbol

def name : Symbol → List Char
  | node n _ _ _ _ => n

def kind : Symbol → SymbolKind
  | node _ k _ _ _ => k

/-- Everything that belongs to the declaration. -/
def region : Symbol → Region
  | node _ _ r _ _ => r

/-- Where the name stands. -/
def selection : Symbol → Region
  | node _ _ _ s _ => s

def children : Symbol → List Symbol
  | node _ _ _ _ cs => cs

/-- Shown for a declaration without a name. -/
def unnamed : List Char := "<unnamed>".toList

/-- The symbol of a line that starts at `start` and whose last nested line has the frame `last`. -/
def declare (start : Location) (last : Frame) (name : Leaf) (kind : SymbolKind)
    (children : List Symbol) : Symbol :=
  .node (if name.text.isEmpty then unnamed else name.text) kind
    ⟨⟨start.line, 0⟩, last.endOfLine.start.position⟩ name.contentRegion children

end Symbol

mutual
/-- What a line declares, at most one symbol. -/
def Line.symbols : Line → List Symbol
  | .simple f (.mountingPoint sigil name) =>
    [.declare f.start f name
      (if sigil.kind = .plus then .listMountingPoint else .mountingPoint) []]
  | .simple _ _ => []
  | .element f t ls =>
    [.declare f.start (Line.lastFrameOf f ls) t.name .element (Line.symbolsOf ls)]

def Line.symbolsOf : List Line → List Symbol
  | [] => []
  | l :: ls => l.symbols ++ Line.symbolsOf ls
end

/-- What a file declares. -/
def SourceFile.symbols (f : SourceFile) : List Symbol := Line.symbolsOf f.lines

end OffsideMarkup
