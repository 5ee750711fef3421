/-
OffsideMarkup.Editor.Modifier — the modifiers that an event handler may name.

A modifier either sets a condition on the keys held down or calls a method of the event. This is
the whole catalogue; a modifier that is not in it is no error, for a number may stand for a key.
-/

namespace OffsideMarkup

/-- What a modifier does. -/
inductive ModifierKind
  | condition | call
  deriving DecidableEq, Repr, Inhabited

/-- The number that editors know a kind of modifier by: an enumeration member, a method. -/
def ModifierKind.number : ModifierKind → Nat
  | .condition => 20
  | .call => 2

/-- A modifier as it is offered: its name, what it stands for and an explanation in Markdown. -/
structure Modifier where
  label : String
  kind : ModifierKind
  detail : String
  documentation : String
  deriving DecidableEq, Repr, Inhabited

namespace Modifier

/-- All modifiers, in the order in which they are offered. -/
def catalogue : List Modifier :=
  [{ label := "alt"
     kind := .condition
     detail := "EventDescriptorModifiers.alt"
     documentation :=
       "Invoke this event only when the `alt` key (`Option` or `⌥` on OS X) was pressed.\n\n"
         ++ "See [KeyboardEvent.altKey](https://mdn.io/KeyboardEvent.altKey)" },
   { label := "ctrl"
     kind := .condition
     detail := "EventDescriptorModifiers.ctrl"
     documentation :=
       "Invoke this event only when the `ctrl` key was pressed.\n\n"
         ++ "See [KeyboardEvent.ctrlKey](https://mdn.io/KeyboardEvent.ctrlKey)" },
   { label := "shift"
     kind := .condition
     detail := "EventDescriptorModifiers.shift"
     documentation :=
       "Invoke this event only when the `shift` key was pressed.\n\n"
         ++ "See [KeyboardEvent.shiftKey](https://mdn.io/KeyboardEvent.shiftKey)" },
   { label := "meta"
     kind := .condition
     detail := "EventDescriptorModifiers.meta"
     documentation :=
       "Invoke this event only when the `meta` key (`⌘ Command` on Mac keyboards, or the "
         ++ "Windows key `⊞`) was pressed.\n\n"
         ++ "See [KeyboardEvent.metaKey](https://mdn.io/KeyboardEvent.metaKey)" },
   { label := "prevent"
     kind := .call
     detail := "EventDescriptorMethods.preventDefault()"
     documentation :=
       "If invoked when the cancelable attribute value is true, and while executing a listener "
         ++ "for the event with passive set to false, signals to the operation that caused event "
         ++ "to be dispatched that it needs to be canceled.\n\n"
         ++ "See [Event.preventDefault](https://mdn.io/Event.preventDefault)" },
   { label := "stop"
     kind := .call
     detail := "EventDescriptorMethods.stopPropagation()"
     documentation :=
       "When dispatched in a tree, invoking this method prevents event from reaching any objects "
         ++ "other than the current object.\n\n"
         ++ "See [Event.stopPropagation](https://mdn.io/Event.stopPropagation)" },
   { label := "stopImmediate"
     kind := .call
     detail := "EventDescriptorMethods.stopImmediatePropagation()"
     documentation :=
       "Invoking this method prevents event from reaching any registered event listeners after "
         ++ "the current one finishes running and, when dispatched in a tree, also prevents event "
         ++ "from reaching any other objects.\n\n"
         ++ "See [Event.stopImmediatePropagation]"
         ++ "(https://mdn.io/Event.stopImmediatePropagation)" }]

/-- The modifier that a text names. -/
def named? (text : List Char) : Option Modifier :=
  catalogue.find? (·.label.toList == text)

end Modifier

end OffsideMarkup
