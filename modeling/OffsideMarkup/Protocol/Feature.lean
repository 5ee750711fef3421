/-
OffsideMarkup.Protocol.Feature — how the answers of the editor features are written as messages.

Fields that have nothing to say are left out, rather than written as null.
-/
import OffsideMarkup.Editor.Analysis
import OffsideMarkup.Editor.Completion
import OffsideMarkup.Editor.Hover
import OffsideMarkup.Editor.KeyHint

namespace OffsideMarkup

/-- A text as a JSON string. -/
def Json.text (cs : List Char) : Json := .str (String.ofList cs)

def Position.toJson (p : Position) : Json :=
  .obj [("line", .nat p.line), ("character", .nat p.column)]

def Region.toJson (r : Region) : Json :=
  .obj [("start", r.start.toJson), ("end", r.stop.toJson)]

/-- An explanation in Markdown. -/
def Json.markdown (text : String) : Json :=
  .obj [("kind", .str "markdown"), ("value", .str text)]

/-! ## 1. What a file shows by itself -/

/-- Editors have a name for folded comments only. -/
def FoldKind.name? : FoldKind → Option String
  | .comment => some "comment"
  | .element | .text => none

def Fold.toJson (f : Fold) : Json :=
  .obj ([("startLine", .nat f.startLine), ("endLine", .nat f.endLine)]
    ++ Json.field? "kind" (f.kind.name?.map .str))

/-- A piece as five numbers, the last of which is for a refinement that no piece has. -/
def RelativeHighlight.numbers (h : RelativeHighlight) : List Nat :=
  [h.lines, h.columns, h.length, h.meaning.index, 0]

/-- The legend that says what the fourth number of a piece means. -/
def Meaning.legendJson : Json :=
  .obj [("tokenTypes", .arr (legend.map .str)), ("tokenModifiers", .arr [])]

mutual
/-- Only what may hold declarations has a list of them. -/
def Symbol.toJson : Symbol → Json
  | .node name kind region selection children =>
    .obj ([("name", .text name), ("kind", .nat kind.number), ("range", region.toJson),
        ("selectionRange", selection.toJson)]
      ++ match kind with
        | .element => [("children", .arr (Symbol.listJson children))]
        | .mountingPoint | .listMountingPoint => [])

def Symbol.listJson : List Symbol → List Json
  | [] => []
  | s :: ss => s.toJson :: Symbol.listJson ss
end

def KeyHint.toJson (h : KeyHint) : Json :=
  .obj [("position", h.position.toJson), ("label", .str h.label)]

/-! ## 2. What is shown at a position -/

/-- A modifier as it is offered. -/
def Modifier.itemJson (m : Modifier) : Json :=
  .obj [("label", .str m.label), ("kind", .nat m.kind.number), ("detail", .str m.detail),
    ("documentation", .markdown m.documentation)]

/-- The explanation of a modifier as it is shown under the cursor. -/
def Modifier.hoverJson (m : Modifier) : Json :=
  .obj [("contents", .markdown m.documentation)]

/-- An item of the host as it is offered. -/
def HostItem.toJson (item : HostItem) : Json :=
  .obj (("label", .text item.label) :: item.details)

end OffsideMarkup
