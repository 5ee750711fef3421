/-
OffsideMarkup.Editor.Fault — why an editor feature gives no answer.

A fault has a code of its own, apart from the codes of diagnostics, and a wording.
-/

namespace OffsideMarkup

/-- Why a request about a document has no answer. -/
inductive Fault
  /-- The document is not open. -/
  | documentNotFound
  /-- The editor no longer wants the answer. -/
  | requestCancelled
  deriving DecidableEq, Repr, Inhabited

def Fault.code : Fault → Nat
  | .documentNotFound => 1
  | .requestCancelled => 2

def Fault.message : Fault → String
  | .documentNotFound => "Document not found"
  | .requestCancelled => "Request cancelled"

end OffsideMarkup
