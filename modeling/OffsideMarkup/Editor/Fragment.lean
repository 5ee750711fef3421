/-
OffsideMarkup.Editor.Fragment — pieces of another language, with a place in them to ask about.

What the markup leaves to its host, such as tag names and attributes, is asked of the host by a
fragment in a language that it knows. The place is given by the text in front of it. In a fragment
only line feeds end lines, whatever the markup takes for a line break.

A name that does not start with an upper-case letter is that of a native element, which the host
knows about.
-/
import OffsideMarkup.Text.LetterCase
import OffsideMarkup.Text.Location

namespace OffsideMarkup

/-- A language of the host. -/
inductive HostLanguage
  | html | ts | js
  deriving DecidableEq, Repr, Inhabited

def HostLanguage.name : HostLanguage → String
  | .html => "html"
  | .ts => "ts"
  | .js => "js"

/-- A text in a language of the host and a position in it. -/
structure Fragment where
  language : HostLanguage
  source : List Char
  position : Position
  deriving DecidableEq, Repr, Inhabited

namespace Fragment

/-- Where a text ends, counting lines by line feeds. -/
def endOf (text : List Char) : Position :=
  ⟨text.count '\n', unitLength (text.reverse.takeWhile (· != '\n'))⟩

/-- The fragment that asks about the place between two texts. -/
def between (language : HostLanguage) (before after : List Char) : Fragment :=
  ⟨language, before ++ after, endOf before⟩

/-! ## The fragments -/

/-- Asks for tags. -/
def tags : Fragment := between .html "<".toList []

/-- Asks about a tag. -/
def tag (name : List Char) : Fragment := between .html ('<' :: name) ">".toList

/-- Asks for the attributes of a tag. -/
def attributesOf (tag : List Char) : Fragment := between .html ('<' :: tag ++ [' ']) []

/-- Asks about an attribute of a tag. -/
def attributeOf (tag name : List Char) : Fragment :=
  between .html ('<' :: tag ++ ' ' :: name) " />".toList

/-- Asks about an event of a tag. -/
def eventOf (tag name : List Char) : Fragment :=
  between .html ('<' :: tag ++ " on".toList ++ name) "=\"\" />".toList

/-- Asks for the properties of a tag. -/
def propertiesOf (tag : List Char) : Fragment :=
  between .ts
    ("\x7b\n    let _: HTMLElementTagNameMap['".toList ++ lowercase tag ++ "']\n    _!.".toList)
    "\n\x7d".toList

/-- Asks about a property of a tag. -/
def propertyOf (tag name : List Char) : Fragment :=
  between .ts
    ("(null as HTMLElementTagNameMap['".toList ++ lowercase tag ++ "']).".toList ++ name) []

end Fragment

/-- The name is one of a native element. -/
def isNativeTag (name : List Char) : Bool := !startsUppercase name

end OffsideMarkup
