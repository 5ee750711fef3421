/-
OffsideMarkup.Protocol.HostAnswer — what the host answers when it is asked about a fragment.

Asked for what may be written at a place it answers with a list, asked about a word with something
to show. Both are passed on to the editor in plain form. Something to show may come in several
forms, and where it points at a stretch of the fragment that is left out: the fragment is no part of
any document.
-/
import OffsideMarkup.Editor.Completion
import OffsideMarkup.Protocol.Shape

namespace OffsideMarkup

namespace Shape

def textEdit : Shape := .record true [("range", true, region), ("newText", true, .text)]

/-- An edit that depends on whether the item is put in or put in place of what is there. -/
def insertOrReplace : Shape :=
  .record true [("newText", true, .text), ("insert", true, region), ("replace", true, region)]

/-- A text in a markup language. -/
def markup : Shape :=
  .record true [("kind", true, .word ["plaintext", "markdown"]), ("value", true, .text)]

/-- A text, or one in the language of a program. -/
def markedText : Shape :=
  .oneOf [.text, .record true [("language", true, .text), ("value", true, .text)]]

def completionItem : Shape :=
  .record true
    [("label", true, .text),
      ("labelDetails", false,
        .record true [("detail", false, .text), ("description", false, .text)]),
      ("kind", false, signed),
      ("detail", false, .text),
      ("documentation", false, .oneOf [.text, markup]),
      ("deprecated", false, .flag),
      ("preselect", false, .flag),
      ("sortText", false, .text),
      ("filterText", false, .text),
      ("insertText", false, .text),
      ("insertTextFormat", false, signed),
      ("insertTextMode", false, signed),
      ("textEdit", false, .oneOf [textEdit, insertOrReplace]),
      ("additionalTextEdits", false, .list textEdit),
      ("command", false,
        .record true
          [("title", true, .text), ("command", true, .text), ("arguments", false, .list .any)]),
      ("commitCharacters", false, .list .text),
      ("data", false, .any),
      ("tags", false, .list signed)]

def completionList : Shape :=
  .record true [("isIncomplete", true, .flag), ("items", true, .list completionItem)]

def hover : Shape :=
  .record true
    [("contents", true, .oneOf [markedText, .list markedText, markup]), ("range", false, region)]

end Shape

/-- An item in plain form. -/
def HostItem.ofPlain? : Json → Option HostItem
  | .obj fields => do
    let label ← (← fields.lookup "label").str?
    return ⟨label.toList, fields.filter (·.1 != "label")⟩
  | _ => none

/-- A list that the host answers with. -/
def HostList.ofJson? (j : Json) : Option HostList := do
  let plain ← Shape.completionList.read? j
  let items ← (← plain.get? "items").arr?
  return ⟨← (← plain.get? "isIncomplete").bool?, ← items.mapM HostItem.ofPlain?⟩

/-- Something that the host gives to show. -/
structure HostHover where
  contents : Json
  deriving Repr, Inhabited

def HostHover.ofJson? (j : Json) : Option HostHover := do
  return ⟨← (← Shape.hover.read? j).get? "contents"⟩

end OffsideMarkup
