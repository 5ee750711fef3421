/-
OffsideMarkup.Editor.Hover — what an editor shows about the word under the cursor.

The library explains modifiers. About tags, attributes, properties and events it asks the host, and
only where the element is a native one, since the host knows no others.
-/
import OffsideMarkup.Editor.Fragment
import OffsideMarkup.Editor.Modifier
import OffsideMarkup.Editor.Spot

namespace OffsideMarkup

/-- What to show. -/
inductive Hover
  /-- The explanation of a modifier. -/
  | modifier (m : Modifier)
  /-- What the host says about a fragment. -/
  | ask (fragment : Fragment)
  deriving DecidableEq, Repr, Inhabited

/-- What the sigil of a line and the word behind it stand for, given the name of the native element
around it. -/
def Row.subjectFragment? (owner : Option (List Char)) : Row → Option Fragment
  | .element _ t =>
    if t.name.text.isEmpty || !isNativeTag t.name.text then none else some (.tag t.name.text)
  | .simple _ (.attribute a) =>
    owner.map fun tag =>
      if a.isProperty then .propertyOf tag a.binding.text else .attributeOf tag a.binding.text
  | .simple _ (.handler h) => owner.map fun tag => .eventOf tag h.event.text
  | .simple _ _ => none

/-- What the event behind a property stands for. -/
def Row.triggerFragment? (owner : Option (List Char)) : Row → Option Fragment
  | .simple _ (.attribute a) =>
    owner.bind fun tag => a.trigger.map fun (_, event) => .eventOf tag event.text
  | _ => none

/-- What to show about a spot. -/
def Spot.hover? (s : Spot) : Option Hover :=
  let owner := s.ownerName?.filter isNativeTag
  match s.label.role with
  | .sigil | .subject => (s.row.subjectFragment? owner).map .ask
  | .trigger => (s.row.triggerFragment? owner).map .ask
  | .modifier => if s.label.kind = .literal then (Modifier.named? s.text).map .modifier else none
  | .part => none

/-- What to show at a position. -/
def SourceFile.hoverAt? (f : SourceFile) (p : Position) : Option Hover :=
  (f.spotAt? p).bind Spot.hover?

end OffsideMarkup
