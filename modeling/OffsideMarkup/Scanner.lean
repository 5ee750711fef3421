/-
OffsideMarkup.Scanner — the lexer as a value that is stepped.

A scanner is the token it stands on and the text behind that token. Being a value, it needs no
checkpoints: whoever wants to return to a point keeps the scanner of that point. `attempt` is the
one combination worth a name, a step that counts only if it succeeds.

`indentAhead` answers what the offside rule asks at a line's first token: how far is the next line
with content indented? It steps over blank lines, each of them an optional indentation, an empty
comment and a line break, and takes the end of the text for column 0.
-/
import OffsideMarkup.Token

namespace OffsideMarkup

/-- A token and the text behind it. -/
structure Scanner where
  token : Token
  rest : List Char
  deriving DecidableEq, Repr, Inhabited

namespace Scanner

/-- In front of a text, on no token yet. -/
def start (text : List Char) : Scanner := ⟨⟨.unknown, .origin, [], []⟩, text⟩

/-- On the next token. Behind the end of the text there is only the end, again and again. -/
def scan (s : Scanner) : Scanner :=
  let next := cut s.token.kind s.token.stop s.rest
  ⟨next.1, next.2⟩

/-- Several steps at once. -/
def scanTimes : Nat → Scanner → Scanner
  | 0, s => s
  | n + 1, s => scanTimes n s.scan

/-- A step that is taken back unless it comes to something. -/
def attempt (s : Scanner) (step : Scanner → Option α × Scanner) : Option α × Scanner :=
  match step s with
  | (some a, next) => (some a, next)
  | (none, _) => (none, s)

theorem length_rest_scan_le (s : Scanner) : s.scan.rest.length ≤ s.rest.length :=
  length_cut_le ..

theorem length_rest_scan_lt {s : Scanner} (h : s.scan.token.kind = .lineBreak) :
    s.scan.rest.length < s.rest.length := by
  simp only [scan] at h ⊢
  refine length_cut_lt (by simp [h]) ?_
  simp [Token.isEmptyComment, h]

/-! ## The indentation ahead -/

/-- The width of the indentation the scanner stands on. -/
def indentHere (s : Scanner) : Nat :=
  if s.token.kind = .indentation then s.token.width else 0

/-- Past the indentation, if the scanner stands on one. -/
def pastIndent (s : Scanner) : Scanner :=
  if s.token.kind = .indentation then s.scan else s

theorem length_rest_pastIndent_le (s : Scanner) : s.pastIndent.rest.length ≤ s.rest.length := by
  unfold pastIndent
  split
  · exact s.length_rest_scan_le
  · exact Nat.le_refl _

/-- The indentation of the next line with content, in UTF-16 units; 0 if there is none. -/
def indentAhead (s : Scanner) : Nat :=
  let first := s.pastIndent
  if first.token.isEmptyComment then
    if first.scan.token.kind = .lineBreak then first.scan.scan.indentAhead else 0
  else if first.token.kind = .endOfText then 0
  else s.indentHere
termination_by s.rest.length
decreasing_by
  rename_i hbreak
  have h1 := s.length_rest_pastIndent_le
  have h2 : s.pastIndent.scan.rest.length < s.pastIndent.rest.length := length_rest_scan_lt hbreak
  have h3 := s.pastIndent.scan.length_rest_scan_le
  omega

/-! ## Every step up to the end of the text -/

/-- A bound on the scans up to the end of the text: two for each character, and one more where a
blank line may open. -/
def scansLeft (s : Scanner) : Nat := 2 * s.rest.length + s.token.kind.opensLine.toNat

theorem scansLeft_scan_lt {s : Scanner} (h : s.scan.token.kind ≠ .endOfText) :
    s.scan.scansLeft < s.scansLeft := by
  simp only [scan] at h
  simp only [scansLeft, scan]
  by_cases blank : (cut s.token.kind s.token.stop s.rest).1.isEmptyComment = true
  · have comment : (cut s.token.kind s.token.stop s.rest).1.kind = .comment := by
      simp only [Token.isEmptyComment, Bool.and_eq_true, beq_iff_eq] at blank
      exact blank.1
    have le := length_cut_le s.token.kind s.token.stop s.rest
    rw [opensLine_of_cut_comment comment, comment]
    simp only [Kind.opensLine, Bool.toNat_false, Bool.toNat_true]
    omega
  · have lt := length_cut_lt h (by simpa using blank)
    have := Bool.toNat_le (cut s.token.kind s.token.stop s.rest).1.kind.opensLine
    omega

/-- The scanner after each step, up to the first end of text. -/
def run (s : Scanner) : List Scanner :=
  if s.scan.token.kind = .endOfText then [s.scan] else s.scan :: s.scan.run
termination_by s.scansLeft
decreasing_by exact scansLeft_scan_lt ‹_›

end Scanner

/-- The tokens of a text, the last one being its end. -/
def tokens (text : List Char) : List Token :=
  (Scanner.start text).run.map (·.token)

end OffsideMarkup
