/-
OffsideMarkup.Tree.Dump — a syntax tree as indented lines of text.

One line for each node: its kind and its bytes, the text if it is a leaf, and whether it is missing.
Children stand below their parent, two columns further in.
-/
import OffsideMarkup.Text.Quoted
import OffsideMarkup.Tree.Node

namespace OffsideMarkup

/-- A node by itself. -/
def Label.describe (l : Label) : String :=
  let bytes := l.extent.span
  l.kind.name ++ "@" ++ toString bytes.start ++ ".." ++ toString bytes.stop
    ++ l.source.elim "" (fun s => " " ++ String.ofList (quoted s))
    ++ (if l.missing then " missing" else "")

mutual
/-- The lines of a node at a depth. -/
def Node.dump (depth : Nat) : Node → List String
  | .node l ts => ("".pushn ' ' (2 * depth) ++ l.describe) :: Node.dumpAll (depth + 1) ts

def Node.dumpAll (depth : Nat) : List Node → List String
  | [] => []
  | t :: ts => Node.dump depth t ++ Node.dumpAll depth ts
end

/-- The tree of a file, line by line. -/
def SourceFile.dump (f : SourceFile) : List String := Node.dump 0 f.root

end OffsideMarkup
