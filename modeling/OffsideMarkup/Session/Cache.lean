/-
OffsideMarkup.Session.Cache — the lists of the host that are worth keeping.

The list of tags is kept for a time. The attributes of a tag are kept for good, if no script can
change what they are, and serve for attributes and for events. A list is kept as the host gave it,
before anything is selected from it, and only if it is complete and not empty. Properties are not
kept.

Times are milliseconds of a clock that never goes back.
-/
import OffsideMarkup.Editor.Completion
import OffsideMarkup.Table

namespace OffsideMarkup

/-- The lists that are kept: that of tags with the time at which it came in, and those of
attributes under their tags. -/
structure Cache where
  tags : Option (Nat × HostList)
  attributes : Table (List Char) HostList
  deriving Repr, Inhabited

/-- The list may be kept. -/
def HostList.isKeepable (l : HostList) : Bool := !l.isIncomplete && !l.items.isEmpty

namespace Cache

def empty : Cache := ⟨none, .empty⟩

/-- The kept list that serves a target. -/
def get? (c : Cache) (lifetime now : Nat) : Target → Option HostList
  | .tag => (c.tags.filter fun (stored, _) => now - stored < lifetime).map (·.2)
  | .attribute tag | .event tag => c.attributes.get? tag
  | .property _ => none

/-- Keeps the list that came in for a target, if it may be kept. -/
def store (c : Cache) (now : Nat) (target : Target) (list : HostList) : Cache :=
  if list.isKeepable then
    match target with
    | .tag => { c with tags := some (now, list) }
    | .attribute tag | .event tag =>
      if isCacheableTag tag then { c with attributes := c.attributes.insert tag list } else c
    | .property _ => c
  else c

end Cache

end OffsideMarkup
