/-
OffsideMarkup.Tree.Node — the syntax of a file as a tree of uniform nodes.

Listing, printing and pointing with a cursor treat all syntax alike. `SourceFile.root` gives the
view they need: a tree whose labels say kind, extent and, for a leaf, the text. The children of a
node stand in the order in which they stand in the text.

A label also says which part its node plays (`Role`). A cursor feature asks for little: the sigil
that opens a line, what the line is about, what writes a property back, and what belongs to the
modifiers of an event. All other nodes are just parts.
-/
import OffsideMarkup.Tree.Basic
import OffsideMarkup.Tree.Rose

namespace OffsideMarkup

/-! ## 1. Labels -/

/-- The part that a node plays in its line. -/
inductive Role
  /-- The sigil that opens the line. -/
  | sigil
  /-- What the line is about: a tag name, a binding, an event. -/
  | subject
  /-- The event behind a property, or the sigil in front of it. -/
  | trigger
  /-- An item of the modifier chain, or a dot in front of one. -/
  | modifier
  | part
  deriving DecidableEq, Repr, Inhabited

/-- What is known of a node apart from its children. -/
structure Label where
  role : Role
  kind : Kind
  extent : Extent
  missing : Bool
  /-- The text of a leaf. -/
  source : Option (List Char)
  /-- The width of the indentation of a line. -/
  level : Option Nat
  deriving DecidableEq, Repr, Inhabited

/-- Tokens and literals are leaves. -/
def Label.isLeaf (l : Label) : Bool := l.source.isSome

abbrev Node := Rose Label

/-! ## 2. Building nodes -/

def Leaf.node (l : Leaf) (role : Role) : Node :=
  .node ⟨role, l.kind, l.extent, l.missing, some l.source, none⟩ []

/-- A composite node stretches from its start to the end of its last child. -/
def Node.compose (kind : Kind) (start : Location) (children : List Node)
    (level : Option Nat) : Node :=
  let stop := (children.getLast?.map (·.label.extent.stop)).getD start
  .node ⟨.part, kind, ⟨start, stop⟩, false, none, level⟩ children

/-- Two nodes that come together or not at all. -/
def pairNodes {α β : Type} (first : α → Node) (second : β → Node) : Option (α × β) → List Node
  | none => []
  | some (a, b) => [first a, second b]

/-- The items of a chain with the dots between them. -/
def Chain.nodes {α : Type} (c : Chain α) (role : Role) (item : α → Node) : List Node :=
  item c.head :: c.tail.flatMap fun (dot, a) => [dot.node role, item a]

def Chain.node {α : Type} (c : Chain α) (role : Role) (item : α → Node) : Node :=
  let first := item c.head
  .compose .chain first.label.extent.start (c.nodes role item) none

def Mustache.node (m : Mustache) : Node :=
  .compose .mustache m.opening.start
    ([m.opening.node .part, m.path.node .part (·.node .part)]
      ++ pairNodes (·.node .part) (·.node .part) m.fallback
      ++ [m.closing.node .part])
    none

def TemplatePart.node : TemplatePart → Node
  | .literal l => l.node .part
  | .mustache m => m.node

def Template.node (t : Template) : Node :=
  .compose .template t.start (t.parts.map TemplatePart.node) none

def Value.node : Value → Node
  | .mustache m => m.node
  | .template t => t.node

def Tag.node (t : Tag) : Node :=
  .compose .tag t.sigil.start
    ([t.sigil.node .sigil, t.name.node .subject]
      ++ pairNodes (·.node .part) (·.node .part Template.node) t.classes
      ++ pairNodes (·.node .part) (·.node .part) t.reference)
    none

/-! ## 3. Lines and files -/

/-- The kind of a line. -/
def Body.kind : Body → Kind
  | .comment _ => .commentLine
  | .attribute _ => .attribute
  | .handler _ => .handler
  | .text _ _ => .textLine
  | .mountingPoint _ _ => .mountingPoint

/-- What a line declares, part by part. -/
def Body.nodes : Body → List Node
  | .comment words => words.toList.map (·.node .part)
  | .attribute a =>
    [a.sigil.node .sigil, a.binding.node .subject]
      ++ pairNodes (·.node .trigger) (·.node .trigger) a.trigger
      ++ pairNodes (·.node .part) Value.node a.value
  | .handler h =>
    [h.sigil.node .sigil, h.event.node .subject]
      ++ pairNodes (·.node .modifier) (·.node .modifier (·.node .modifier)) h.modifiers
      ++ [h.equals.node .part, h.action.node .part]
      ++ pairNodes (·.node .part) Template.node h.parameter
  | .text sigil content => [sigil.node .sigil, content.node]
  | .mountingPoint sigil name => [sigil.node .sigil, name.node .subject]

/-- Everything between the two ends of a line, both included. -/
def Frame.around (f : Frame) (nodes : List Node) : List Node :=
  f.indent.toList.map (·.node .part) ++ nodes ++ [f.endOfLine.node .part]

/-- The nodes of a line itself, without the lines nested in it. -/
def Row.nodes : Row → List Node
  | .simple f b => f.around b.nodes
  | .element f t => f.around [t.node]

mutual
def Line.node : Line → Node
  | .simple f b => .compose b.kind f.start (f.around b.nodes) (some f.level)
  | .element f t ls =>
    .compose .element f.start (f.around [t.node] ++ Line.nodesOf ls) (some f.level)

def Line.nodesOf : List Line → List Node
  | [] => []
  | l :: ls => l.node :: Line.nodesOf ls
end

/-- The whole file as one node. -/
def SourceFile.root (f : SourceFile) : Node :=
  .compose .file .origin (Line.nodesOf f.lines ++ [f.endOfFile.node .part]) none

/-! ## 4. What a node says -/

/-- The text under a node, put together from its leaves. -/
def Node.source (n : Node) : List Char :=
  n.preorder.flatMap fun l => l.source.getD []

/-- The text a file was read from. -/
def SourceFile.source (f : SourceFile) : List Char := f.root.source

end OffsideMarkup
