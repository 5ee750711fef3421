/-
OffsideMarkup.Editor.Highlight — the pieces of a text by what they mean.

Each piece is a leaf without its leading space, together with its `Meaning`. `Highlight.relative`
writes a list of pieces as editors receive it, each one by its distance from the one before, and
`Highlight.absolute` reads that back.

Not every leaf is a piece: what is missing, indentation, line breaks and the end of the text mean
nothing, and a leaf of nothing but space has no width.
-/
import OffsideMarkup.Tree.Basic

namespace OffsideMarkup

/-! ## 1. Meanings -/

/-- What a piece of text means. -/
inductive Meaning
  | comment | string | elementStart | className | element | reference | mustacheStart | mustacheEnd
  | expression | operator | mountingPoint | listMountingPoint | event | modifier | property
  | attribute
  deriving DecidableEq, Repr, Inhabited

namespace Meaning

/-- Every meaning, in the order that editors number them by. -/
def all : List Meaning :=
  [.comment, .string, .elementStart, .className, .element, .reference, .mustacheStart, .mustacheEnd,
   .expression, .operator, .mountingPoint, .listMountingPoint, .event, .modifier, .property,
   .attribute]

theorem mem_all (m : Meaning) : m ∈ all := by cases m <;> decide

/-- The number of a meaning. -/
def index (m : Meaning) : Nat := all.idxOf m

/-- The name of a meaning in the legend for editors. -/
def name : Meaning → String
  | .comment => "comment"
  | .string => "string"
  | .elementStart => "elementStart"
  | .className => "class"
  | .element => "element"
  | .reference => "reference"
  | .mustacheStart => "mustacheStart"
  | .mustacheEnd => "mustacheEnd"
  | .expression => "exoticExpression"
  | .operator => "operator"
  | .mountingPoint => "mountingPoint"
  | .listMountingPoint => "listMountingPoint"
  | .event => "event"
  | .modifier => "modifier"
  | .property => "property"
  | .attribute => "attribute"

/-- The names of all meanings in order. -/
def legend : List String := all.map name

end Meaning

/-! ## 2. Pieces -/

/-- A piece of one line: where it starts, its width in units and what it means. -/
structure Highlight where
  line : Nat
  column : Nat
  length : Nat
  meaning : Meaning
  deriving DecidableEq, Repr, Inhabited

namespace Highlight

/-- A leaf of these kinds is never a piece. -/
def isSilent : Kind → Bool
  | .indentation | .lineBreak | .endOfText => true
  | _ => false

/-- The piece of a leaf, if it is one. -/
def ofLeaf (meaning : Meaning) (l : Leaf) : List Highlight :=
  if l.missing || isSilent l.kind || l.extent.crossesLine then []
  else
    let blank := min l.leadingWidth l.extent.length
    if l.extent.length - blank = 0 then []
    else [⟨l.start.line, l.start.column + blank, l.extent.length - blank, meaning⟩]

/-- The pieces of a chain: dots are operators. -/
def ofChain {α : Type} (item : α → List Highlight) (c : Chain α) : List Highlight :=
  item c.head ++ c.tail.flatMap fun (dot, a) => ofLeaf .operator dot ++ item a

/-- An operator with what it introduces. -/
def ofPair {α : Type} (item : α → List Highlight) : Option (Leaf × α) → List Highlight
  | none => []
  | some (operator, a) => ofLeaf .operator operator ++ item a

def ofMustache (m : Mustache) : List Highlight :=
  ofLeaf .mustacheStart m.opening
    ++ ofChain (ofLeaf .expression) m.path
    ++ ofPair (ofLeaf .string) m.fallback
    ++ ofLeaf .mustacheEnd m.closing

/-- The pieces of a template whose text has the given meaning. -/
def ofTemplate (meaning : Meaning) (t : Template) : List Highlight :=
  t.parts.flatMap fun
    | .literal l => ofLeaf meaning l
    | .mustache m => ofMustache m

def ofValue : Value → List Highlight
  | .mustache m => ofMustache m
  | .template t => ofTemplate .string t

def ofTag (t : Tag) : List Highlight :=
  ofLeaf .elementStart t.sigil
    ++ ofLeaf .element t.name
    ++ ofPair (ofChain (ofTemplate .className)) t.classes
    ++ t.reference.elim [] fun (sigil, name) => ofLeaf .reference sigil ++ ofLeaf .reference name

def ofBody : Body → List Highlight
  | .comment words => words.elim [] (ofLeaf .comment)
  | .attribute a =>
    let meaning := if a.isProperty then .property else .attribute
    ofLeaf meaning a.sigil
      ++ ofLeaf meaning a.binding
      ++ (a.trigger.elim [] fun (sigil, event) => ofLeaf .event sigil ++ ofLeaf .event event)
      ++ ofPair ofValue a.value
  | .handler h =>
    ofLeaf .event h.sigil
      ++ ofLeaf .event h.event
      ++ ofPair (ofChain (ofLeaf .modifier)) h.modifiers
      ++ ofLeaf .operator h.equals
      ++ ofLeaf .expression h.action
      ++ ofPair (ofTemplate .string) h.parameter
  | .text sigil content => ofLeaf .operator sigil ++ ofTemplate .string content
  | .mountingPoint sigil name =>
    let meaning := if sigil.kind = .plus then .listMountingPoint else .mountingPoint
    ofLeaf meaning sigil ++ ofLeaf meaning name

end Highlight

mutual
/-- The pieces of a line and of what is nested in it. -/
def Line.highlights : Line → List Highlight
  | .simple _ b => Highlight.ofBody b
  | .element _ t ls => Highlight.ofTag t ++ Line.highlightsOf ls

def Line.highlightsOf : List Line → List Highlight
  | [] => []
  | l :: ls => l.highlights ++ Line.highlightsOf ls
end

/-- The pieces of a file, in the order of the text. -/
def SourceFile.highlights (f : SourceFile) : List Highlight := Line.highlightsOf f.lines

/-! ## 3. Distances -/

/-- A piece by its distance from the piece before: in lines, and in columns where both stand on one
line. -/
structure RelativeHighlight where
  lines : Nat
  columns : Nat
  length : Nat
  meaning : Meaning
  deriving DecidableEq, Repr, Inhabited

namespace Highlight

/-- Pieces by their distances, the first one from the given line and column. -/
def relativeFrom (line column : Nat) : List Highlight → List RelativeHighlight
  | [] => []
  | h :: hs =>
    ⟨h.line - line, if h.line - line = 0 then h.column - column else h.column, h.length,
      h.meaning⟩ :: relativeFrom h.line h.column hs

/-- Pieces by their distances, the first one from the start of the text. -/
def relative (hs : List Highlight) : List RelativeHighlight := relativeFrom 0 0 hs

/-- Where pieces stand that are given by their distances. -/
def absoluteFrom (line column : Nat) : List RelativeHighlight → List Highlight
  | [] => []
  | r :: rs =>
    let column := if r.lines = 0 then column + r.columns else r.columns
    ⟨line + r.lines, column, r.length, r.meaning⟩ :: absoluteFrom (line + r.lines) column rs

def absolute (rs : List RelativeHighlight) : List Highlight := absoluteFrom 0 0 rs

end Highlight

end OffsideMarkup
