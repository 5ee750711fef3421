/-
OffsideMarkup.Diagnostic.Basic — a finding about a text.

A diagnostic keeps its message and the arguments apart, so code, severity and wording all follow
from the catalogue. It says where it applies twice, in bytes and in lines and columns, and may
point at other places that explain it.
-/
import OffsideMarkup.Diagnostic.Message
import OffsideMarkup.Text.Location

namespace OffsideMarkup

/-- Another place that explains a diagnostic. -/
structure Related where
  span : Span
  region : Region
  note : String
  deriving DecidableEq, Repr, Inhabited

/-- A finding about a text. -/
structure Diagnostic where
  message : Message
  args : List String
  span : Span
  region : Region
  related : List Related
  deriving DecidableEq, Repr, Inhabited

namespace Diagnostic

def text (d : Diagnostic) : String := d.message.format d.args

def code (d : Diagnostic) : Nat := d.message.code

def severity (d : Diagnostic) : Severity := d.message.severity

def isError (d : Diagnostic) : Bool := d.severity == .error

/-- A finding about an extent of the text. -/
def ofExtent (message : Message) (args : List String) (e : Extent) : Diagnostic :=
  ⟨message, args, e.span, e.region, []⟩

/-- The finding with one more place to look at. -/
def withRelated (d : Diagnostic) (e : Extent) (note : String) : Diagnostic :=
  { d with related := d.related ++ [⟨e.span, e.region, note⟩] }

end Diagnostic

end OffsideMarkup
