/-
OffsideMarkup.Editor.KeyHint — the names of keys, shown in front of their codes.

A modifier that is a number stands for the key with that code. An editor shows the name of the key
in front of the number, as if it were written there.
-/
import OffsideMarkup.Text.Number
import OffsideMarkup.Tree.Basic

namespace OffsideMarkup

/-- The keys with a code that follows no rule. -/
def keyTable : List (Nat × String) :=
  [(3, "CANCEL"), (6, "HELP"), (8, "BACK_SPACE"), (9, "TAB"), (12, "CLEAR"), (13, "ENTER"),
   (16, "SHIFT"), (17, "CONTROL"), (18, "ALT"), (19, "PAUSE"), (20, "CAPS_LOCK"), (21, "KANA"),
   (25, "KANJI"), (27, "ESCAPE"), (28, "CONVERT"), (29, "NONCONVERT"), (32, "SPACE"),
   (33, "PAGE_UP"), (34, "PAGE_DOWN"), (35, "END"), (36, "HOME"), (37, "LEFT"), (38, "UP"),
   (39, "RIGHT"), (40, "DOWN"), (41, "SELECT"), (42, "PRINT"), (43, "EXECUTE"),
   (44, "PRINTSCREEN"), (45, "INSERT"), (46, "DELETE"), (91, "OS_KEY"), (93, "CONTEXT_MENU"),
   (95, "SLEEP"), (106, "MULTIPLY"), (107, "ADD"), (108, "SEPARATOR"), (109, "SUBTRACT"),
   (110, "DECIMAL"), (111, "DIVIDE"), (144, "NUM_LOCK"), (145, "SCROLL_LOCK"),
   (186, "SEMICOLON"), (187, "EQUALS"), (188, "COMMA"), (189, "MINUS"), (190, "PERIOD"),
   (191, "SLASH"), (192, "BACK_QUOTE"), (219, "OPEN_BRACKET"), (220, "BACK_SLASH"),
   (221, "CLOSE_BRACKET"), (222, "QUOTE"), (224, "META"), (225, "ALTGR")]

/-- The name of the key with a code. Digits and letters have the code of their character, and the
keys of the number pad and the function keys are numbered through. -/
def keyName? (code : Nat) : Option String :=
  if (48 ≤ code && code ≤ 57) || (65 ≤ code && code ≤ 90) then
    some (String.singleton (Char.ofNat code))
  else if 96 ≤ code && code ≤ 105 then some ("NUMPAD" ++ toString (code - 96))
  else if 112 ≤ code && code ≤ 135 then some ("F" ++ toString (code - 111))
  else keyTable.lookup code

/-- A text to show in front of a position. -/
structure KeyHint where
  position : Position
  label : String
  deriving DecidableEq, Repr, Inhabited

/-- The hint for a modifier, if it is the code of a key. Codes fit 32 bits. -/
def KeyHint.ofLeaf? (l : Leaf) : Option KeyHint :=
  ((readNumber? wordBound l.text).bind keyName?).map fun name =>
    ⟨l.contentRegion.start, name ++ " :"⟩

/-- The hints of what a line declares. -/
def Body.keyHints : Body → List KeyHint
  | .handler h => h.modifiers.elim [] fun (_, chain) => chain.items.filterMap KeyHint.ofLeaf?
  | _ => []

mutual
/-- The hints of a line and of what is nested in it. -/
def Line.keyHints : Line → List KeyHint
  | .simple _ b => b.keyHints
  | .element _ _ ls => Line.keyHintsOf ls

def Line.keyHintsOf : List Line → List KeyHint
  | [] => []
  | l :: ls => l.keyHints ++ Line.keyHintsOf ls
end

/-- The hints of a file. -/
def SourceFile.keyHints (f : SourceFile) : List KeyHint := Line.keyHintsOf f.lines

end OffsideMarkup
