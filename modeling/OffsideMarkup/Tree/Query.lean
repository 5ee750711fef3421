/-
OffsideMarkup.Tree.Query — questions about the nodes of a file.

Nodes are named by their number in document order, the root being 0. A numbered tree has its
subtrees in that very order, so a number is also an index.

A search never finds the node it starts from; it looks at what lies under it.
-/
import OffsideMarkup.Tree.Node

namespace OffsideMarkup

/-- A syntax tree whose nodes know their numbers. -/
abbrev NumberedTree := Rose (Nat × Label)

/-- The tree of a file with its nodes numbered. -/
def SourceFile.numbered (f : SourceFile) : NumberedTree := f.root.number

namespace NumberedTree

def numberOf (t : NumberedTree) : Nat := t.label.1

def kind (t : NumberedTree) : Kind := t.label.2.kind

/-- The node with a number, as a tree. -/
def find? (t : NumberedTree) (n : Nat) : Option NumberedTree := t.subtrees[n]?

def childNumbers (t : NumberedTree) : List Nat := t.children.map numberOf

/-- The numbers of the nodes above a node, nearest first. -/
def ancestors (t : NumberedTree) (n : Nat) : List Nat :=
  ((t.withAncestors [])[n]?.map fun (above, _) => above.map (·.1)).getD []

def parent? (t : NumberedTree) (n : Nat) : Option Nat := (t.ancestors n).head?

/-- The text under a node. -/
def source (t : NumberedTree) : List Char := t.preorder.flatMap fun (_, l) => l.source.getD []

/-- The nodes under the root that pass a test. -/
def findAll (t : NumberedTree) (p : Label → Bool) : List Nat :=
  (t.descendants.filter fun (_, l) => p l).map (·.1)

/-- The first child of a kind. -/
def firstChild? (t : NumberedTree) (k : Kind) : Option Nat :=
  (t.children.find? fun (u : NumberedTree) => u.kind == k).map numberOf

/-- Visits what lies under a node until one of a kind is met: the numbers visited, that one
included, and that one. -/
def walkTo (t : NumberedTree) (k : Kind) : List Nat × Option Nat :=
  let walked := Rose.walk (fun (u : NumberedTree) => if u.kind == k then some u.numberOf else none) t.children
  (walked.1.map numberOf, walked.2)

/-- The items of a list at even places. -/
def everySecond {α : Type} : List α → List α
  | [] => []
  | [a] => [a]
  | a :: _ :: rest => a :: everySecond rest

/-- The items of a chain without the dots; nothing for other nodes. -/
def segments? (t : NumberedTree) : Option (List Nat) :=
  if t.kind = .chain then some (everySecond t.childNumbers) else none

/-- The lines of a file that are nested in no other. -/
def lines (t : NumberedTree) : List Nat :=
  (t.children.filter fun (u : NumberedTree) => u.kind.isLine).map numberOf

def endOfFile? (t : NumberedTree) : Option Nat := t.firstChild? .endOfText

end NumberedTree

end OffsideMarkup
