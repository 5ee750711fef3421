/-
OffsideMarkup.Editor.Completion — what may be written at the cursor.

In the modifiers of an event handler the catalogue knows what to offer: every modifier that is not
in front of the cursor already. On the sigil that opens a line the host knows (`Target`). It is
asked by a fragment, and from its list the items that fit the place are selected. Attributes and
events of a tag are asked for by the same fragment, since the host lists both together; events are
the ones that start with `on`.

No place is both: the first asks for a modifier under the cursor, the second for a sigil.
-/
import OffsideMarkup.Document
import OffsideMarkup.Editor.Fragment
import OffsideMarkup.Editor.Modifier
import OffsideMarkup.Editor.Spot
import OffsideMarkup.Json.Basic

namespace OffsideMarkup

/-! ## 1. Modifiers -/

/-- The modifier chain of a line. -/
def Row.modifiers? : Row → Option (Chain Leaf)
  | .simple _ (.handler h) => h.modifiers.map (·.2)
  | _ => none

/-- What the modifiers of a chain say that end in front of a byte. -/
def Chain.saidBefore (c : Chain Leaf) (offset : Nat) : List (List Char) :=
  (c.items.filter fun l => l.stop.offset ≤ offset).map Leaf.text

/-- The modifiers to offer at a spot. -/
def Spot.modifiers (s : Spot) : List Modifier :=
  match s.label.role, s.row.modifiers? with
  | .modifier, some chain =>
    let said := chain.saidBefore s.label.extent.start.offset
    Modifier.catalogue.filter fun m => !said.contains m.label.toList
  | _, _ => []

/-- The modifiers to offer at a position. -/
def SourceFile.modifiersAt (f : SourceFile) (p : Position) : List Modifier :=
  match f.variant with
  | .html => ((f.spotAt? p).map Spot.modifiers).getD []
  | .unknown => []

/-! ## 2. What the host is asked for -/

/-- What may be written at a place that the host knows about. -/
inductive Target
  | tag
  | attribute (tag : List Char)
  | event (tag : List Char)
  | property (tag : List Char)
  deriving DecidableEq, Repr, Inhabited

/-- What the sigil of a line may be followed by, given the name of the element around it. A
property needs a native element. -/
def Row.target? (owner : Option (List Char)) : Row → Option Target
  | .element _ _ => some .tag
  | .simple _ (.attribute a) =>
    if a.isProperty then (owner.filter isNativeTag).map .property else owner.map .attribute
  | .simple _ (.handler _) => owner.map .event
  | .simple _ _ => none

/-- What to ask the host for at a spot. -/
def Spot.target? (s : Spot) : Option Target :=
  if s.label.role = .sigil then s.row.target? s.ownerName? else none

/-- What to ask the host for at a position. -/
def SourceFile.targetAt? (f : SourceFile) (p : Position) : Option Target :=
  match f.variant with
  | .html => (f.spotAt? p).bind Spot.target?
  | .unknown => none

/-! ## 3. The host's lists -/

/-- An item of a list of the host. All but the label is passed on as it came. -/
structure HostItem where
  label : List Char
  details : List (String × Json)
  deriving Repr, Inhabited

/-- A list of the host, which may say that it is not all. -/
structure HostList where
  isIncomplete : Bool
  items : List HostItem
  deriving Repr, Inhabited

/-- The beginning of the name of an attribute that handles an event. -/
def eventAttributeStart : List Char := "on".toList

namespace Target

/-- The fragment that asks for a target. -/
def fragment : Target → Fragment
  | .tag => .tags
  | .attribute owner | .event owner => .attributesOf owner
  | .property owner => .propertiesOf owner

/-- The only kind of item that the host is asked for, by the number editors know it by: a property,
a field. -/
def itemKind? : Target → Option Nat
  | .tag => some 10
  | .attribute _ | .event _ => none
  | .property _ => some 5

/-- The tag whose attributes are asked for. -/
def attributeTag? : Target → Option (List Char)
  | .attribute owner | .event owner => some owner
  | .tag | .property _ => none

/-- The item to offer for an item of the host, if it fits the target. -/
def selectItem? (t : Target) (item : HostItem) : Option HostItem :=
  match t with
  | .tag => if item.label = "!DOCTYPE".toList then none else some item
  | .attribute _ => if eventAttributeStart.isPrefixOf item.label then none else some item
  | .event _ =>
    if eventAttributeStart.isPrefixOf item.label then
      some { item with label := item.label.drop eventAttributeStart.length }
    else none
  | .property _ => some item

/-- The items of the host that fit the target. -/
def select (t : Target) (list : HostList) : HostList :=
  { list with items := list.items.filterMap t.selectItem? }

end Target

/-- The attributes of the tag may be kept: it is a lower-case name without a hyphen, and so that of
an element which no script can redefine. -/
def isCacheableTag (tag : List Char) : Bool :=
  !tag.contains '-' && lowercase tag == tag

end OffsideMarkup
