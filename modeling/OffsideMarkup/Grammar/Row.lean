/-
OffsideMarkup.Grammar.Row — the forms of a line.

The first token of the content says which form a line has:

    > name (. classes)* (# reference)?            element
    # binding (= value)?                          attribute
    % binding (@ event)? (= value)?               property
    @ event (. modifier)* = action (: parameter)? handler
    . text     | text                             text
    + name     - name                             mounting point

A line that starts with anything but a sigil is a comment by the lexer's rule. The two sigils that
open no line are reported, and the line is kept as one literal. Every form reads to the end of its
line, since its last name or template stops nowhere before that.
-/
import OffsideMarkup.Grammar.Template
import OffsideMarkup.Grammar.TokenLine

namespace OffsideMarkup

namespace Reader

/-! ## 1. The forms behind their sigils -/

def tagBehind (sigil : Leaf) : Reader Tag := do
  let nameStops := KindSet.ofList [.dot, .hashSign]
  let name ← name nameStops
  let classes ← behind .dot (chain (template nameStops))
  let reference ← behind .hashSign (Reader.name .empty)
  return ⟨sigil, name, classes, reference⟩

def attributeBehind (sigil : Leaf) : Reader Attribute := do
  let binding ← name (.ofList [.equals])
  let value ← behind .equals value
  return ⟨sigil, binding, none, value⟩

def propertyBehind (sigil : Leaf) : Reader Attribute := do
  let binding ← name (.ofList [.equals, .atSign])
  let trigger ← behind .atSign (name (.ofList [.equals]))
  let value ← behind .equals value
  return ⟨sigil, binding, trigger, value⟩

def handlerBehind (sigil : Leaf) : Reader Handler := do
  let nameStops := KindSet.ofList [.dot, .equals]
  let event ← name nameStops
  let modifiers ← behind .dot (chain (name nameStops))
  let equals ← expect .equals
  let action ← name (.ofList [.colon])
  let parameter ← behind .colon (template .empty)
  return ⟨sigil, event, modifiers, equals, action, parameter⟩

/-! ## 2. Any form -/

/-- What a line declares: a tag, or something without lines under it. -/
inductive Content
  | element (tag : Tag)
  | simple (body : Body)

/-- A line that opens with a token that opens no line. -/
def unreadable (kind : Kind) : Reader Content := do
  report .unexpectedToken [kind.display]
  return .simple (.comment (some (← literal .empty)))

/-- The content of a line from its first token on. -/
def content : Reader Content := fun stop given =>
  match given with
  | [] => done (.simple (.comment none)) stop []
  | t :: ts =>
    let sigil := Leaf.ofToken t
    let behindSigil (r : Reader Content) : Reading Content (t :: ts) :=
      let a := r stop ts
      ⟨a.value, a.rest, a.findings, a.rest_suffix.trans (List.suffix_cons t ts)⟩
    match t.kind with
    | .greaterThan => behindSigil do return .element (← tagBehind sigil)
    | .hashSign => behindSigil do return .simple (.attribute (← attributeBehind sigil))
    | .percentSign => behindSigil do return .simple (.attribute (← propertyBehind sigil))
    | .atSign => behindSigil do return .simple (.handler (← handlerBehind sigil))
    | .dot | .bar => behindSigil do return .simple (.text sigil (← template .empty))
    | .plus | .minus => behindSigil do return .simple (.mountingPoint sigil (← name .empty))
    | .comment => behindSigil do return .simple (.comment (some sigil))
    | kind => unreadable kind stop (t :: ts)

end Reader

/-- One line, read. -/
def Row.ofTokenLine (l : TokenLine) : Row :=
  let content := Reader.content l.stop l.body
  let frame := ⟨l.start, l.indent.map .ofToken, .ofToken l.stop, content.findings⟩
  match content.value with
  | .element tag => .element frame tag
  | .simple body => .simple frame body

/-- The lines of a text, each read by itself. -/
def Row.ofText (text : List Char) : List Row := (TokenLine.ofText text).map Row.ofTokenLine

end OffsideMarkup
