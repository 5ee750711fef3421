/-
OffsideMarkup.Diagnostic.Message — the catalogue of messages and how their arguments are filled in.

A message has a code, a severity and a template. In a template an index in braces stands for an
argument. `fill` goes over the template once, from left to right: a placeholder whose argument
exists becomes that argument, any other brace stays as it is, and what was filled in is not looked
at again. That last rule matters, because arguments may hold braces themselves: the markup has
brace pairs among its tokens, and messages name tokens.
-/
import OffsideMarkup.Text.Number

namespace OffsideMarkup

/-! ## 1. Filling in arguments -/

/-- What stands between an opening brace and the first closing one, and what follows that. -/
def uptoBrace? (cs : List Char) : Option (List Char × List Char) :=
  match cs.dropWhile (· != '}') with
  | [] => none
  | _ :: rest => some (cs.takeWhile (· != '}'), rest)

theorem length_uptoBrace?_lt {cs inner rest : List Char} (h : uptoBrace? cs = some (inner, rest)) :
    rest.length < cs.length := by
  simp only [uptoBrace?] at h
  split at h
  · simp at h
  · next x tail hd =>
    simp only [Option.some.injEq, Prod.mk.injEq] at h
    obtain ⟨-, rfl⟩ := h
    have whole := List.takeWhile_append_dropWhile (p := (· != '}')) (l := cs)
    rw [hd] at whole
    have := congrArg List.length whole
    simp only [List.length_append, List.length_cons] at this
    omega

/-- The placeholder whose text starts just behind an opening brace: its index, that text up to the
closing brace, and what follows. An index is a number that fits 64 bits. -/
def placeholder? (cs : List Char) : Option (Nat × List Char × List Char) :=
  match uptoBrace? cs with
  | none => none
  | some (inner, rest) => (readNumber? longBound inner).map (·, inner, rest)

theorem length_placeholder?_lt {cs inner rest : List Char} {n : Nat}
    (h : placeholder? cs = some (n, inner, rest)) : rest.length < cs.length := by
  simp only [placeholder?] at h
  split at h
  · simp at h
  · next i r hu =>
    obtain ⟨m, -, e⟩ := Option.map_eq_some_iff.mp h
    simp only [Prod.mk.injEq] at e
    obtain ⟨-, -, rfl⟩ := e
    exact length_uptoBrace?_lt hu

/-- A template with every placeholder that has an argument replaced by it. -/
def fill (args : List (List Char)) : List Char → List Char
  | [] => []
  | c :: cs =>
    if c = '{' then
      match _h : placeholder? cs with
      | some (n, inner, rest) =>
        (args[n]?).getD ('{' :: inner ++ ['}']) ++ fill args rest
      | none => c :: fill args cs
    else c :: fill args cs
termination_by cs => cs.length
decreasing_by
  · have := length_placeholder?_lt ‹_›
    simp only [List.length_cons]
    omega
  · simp
  · simp

/-! ## 2. The catalogue -/

/-- How bad a finding is. -/
inductive Severity
  | error | warning | information | hint
  deriving DecidableEq, Repr, Inhabited

/-- The number that editors know a severity by. -/
def Severity.number : Severity → Nat
  | .error => 1
  | .warning => 2
  | .information => 3
  | .hint => 4

/-- What can be wrong with a text. -/
inductive Message
  /-- A token that the line needs is not there. -/
  | tokenExpected
  /-- A line opens with a token that opens no line. -/
  | unexpectedToken
  /-- A line is indented further than its block. -/
  | unexpectedIndentation
  /-- A name is empty. -/
  | nonEmptyStringExpected
  deriving DecidableEq, Repr, Inhabited

namespace Message

def code : Message → Nat
  | .tokenExpected => 1
  | .unexpectedToken => 2
  | .unexpectedIndentation => 3
  | .nonEmptyStringExpected => 5

/-- Only the indentation is a matter of taste. -/
def severity : Message → Severity
  | .unexpectedIndentation => .warning
  | _ => .error

def template : Message → String
  | .tokenExpected => "Token \x7b0\x7d expected."
  | .unexpectedToken => "Unexpected token \x7b0\x7d"
  | .unexpectedIndentation =>
    "Unexpected indentation: expected \x7b0\x7d columns, found \x7b1\x7d."
  | .nonEmptyStringExpected => "Non-empty string expected."

/-- The message with its arguments. -/
def format (m : Message) (args : List String) : String :=
  String.ofList (fill (args.map String.toList) m.template.toList)

end Message

end OffsideMarkup
