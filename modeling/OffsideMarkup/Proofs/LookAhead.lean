/-
OffsideMarkup.Proofs.LookAhead — what the scanner sees ahead.

The offside rule is stated twice. The rows of a text know the indentation of the next row with
content (`Row.ahead`), and the scanner finds it out by stepping over blank lines
(`Scanner.indentAhead`). On the first token of a line the two agree (`Reads.indentAhead`), since the
first token behind the indentation tells a blank line from one with content (`ReadsLine.isBlank`).
-/
import OffsideMarkup.Grammar.Offside
import OffsideMarkup.Proofs.LineShape

namespace OffsideMarkup

/-- Behind this token, if it is the first of the content of a line, there is nothing on the line. -/
def Token.opensBlank (t : Token) : Bool := t.kind == .endOfText || t.isEmptyComment

namespace Scanner

/-- In front of the first token of the content of a line there is no space. -/
theorem OpensLine.source_pastIndent {p : Scanner} (h : p.OpensLine) :
    p.scan.pastIndent.token.source = p.scan.pastIndent.token.lexeme := by
  obtain ⟨k, lx, rest, -, past⟩ := h.pastIndent_scan
  rw [past]
  rfl

namespace ReadsLine

variable {p e : Scanner} {l : TokenLine}

/-- The first token of the content of a line, which is the end of the text if there is none. -/
theorem token_pastIndent (h : p.ReadsLine l e) :
    p.scan.pastIndent.token = l.body.headD l.stop := by
  have body := h.body
  rw [← h.stop]
  cases given : l.body with
  | nil => rw [given, Passes] at body; rw [body]; rfl
  | cons t ts => rw [given] at body; exact body.1

/-- A line without content ends with the text. -/
theorem kind_of_nothing (h : p.ReadsLine l e) (nothing : l.body = []) :
    l.stop.kind = .endOfText := by
  obtain ⟨k, lx, rest, lexes, past⟩ := h.opens.pastIndent_scan
  have opens := h.opensBody
  have here := h.token_pastIndent
  rw [nothing] at opens here
  generalize p.rest.dropWhile isInlineSpace = cs at opens lexes
  cases opens
  rw [past, lexes.of_nil] at here
  exact (congrArg Token.kind here).symm

/-- The first token of its content says whether a line is blank. -/
theorem isBlank (h : p.ReadsLine l e) :
    (Row.ofTokenLine l).isBlank = p.scan.pastIndent.token.opensBlank := by
  have solid := h.opens.source_pastIndent
  rw [h.token_pastIndent] at solid ⊢
  rw [(content_ofTokenLine l).1]
  have opens := h.opensBody
  have ending := h.kind_of_nothing
  generalize l.body = body at opens ending solid ⊢
  generalize p.rest.dropWhile isInlineSpace = cs at opens
  cases opens with
  | nothing =>
    rw [Token.opensBlank]
    show true = (l.stop.kind == .endOfText || _)
    rw [ending rfl]
    rfl
  | @comment c cs t kind =>
    rw [Reader.isBlank_content_of_comment kind, Token.opensBlank, Token.isEmptyComment]
    rw [List.headD_cons] at solid ⊢
    rw [kind, solid]
    rfl
  | @sigil c cs t ts kind source =>
    obtain ⟨-, -, atEnd, -, -, comment, -⟩ := sigil_is_content kind
    rw [Reader.isBlank_content comment (by simp [source])]
    rw [List.headD_cons, Token.opensBlank, Token.isEmptyComment, beq_eq_false_iff_ne.mpr atEnd,
      beq_eq_false_iff_ne.mpr comment]
    rfl

/-- Behind a comment its line ends. -/
theorem scan_of_comment (h : p.ReadsLine l e) (kind : p.scan.pastIndent.token.kind = .comment) :
    p.scan.pastIndent.scan = e := by
  have body := h.body
  have alone := h.opensBody.comment_alone
  cases given : l.body with
  | nil =>
    have ends := h.ends
    rw [h.token_pastIndent, given] at kind
    have kind : l.stop.kind = .comment := kind
    rw [kind] at ends
    exact absurd ends (by decide)
  | cons t ts =>
    rw [given] at body
    rw [alone t ts given (body.1 ▸ kind)] at body
    exact body.2

/-- At the end of the text its line ends. -/
theorem stop_of_endOfText (h : p.ReadsLine l e)
    (kind : p.scan.pastIndent.token.kind = .endOfText) : e.token.kind = .endOfText := by
  rw [h.token_pastIndent] at kind
  rw [h.stop]
  cases given : l.body with
  | nil => exact h.kind_of_nothing given
  | cons t ts =>
    rw [given] at kind
    have inner := h.inner t (by rw [given]; exact List.mem_cons_self)
    rw [show t.kind = .endOfText from kind] at inner
    exact absurd inner (by decide)

/-- The indentation the scanner stands on in front of a line is the level of the line. -/
theorem indentHere (h : p.ReadsLine l e) : p.scan.indentHere = (Row.ofTokenLine l).level := by
  rw [h.level_ofTokenLine, Scanner.indentHere]
  have indent := h.opens.indent?_scan
  rw [indent?] at indent
  split at indent
  · next kind =>
    rw [if_pos kind]
    split at indent
    · exact absurd indent (by simp)
    · rw [Option.some.inj indent]
      rfl
  · next kind =>
    rw [if_neg kind]
    split at indent
    · next none => rw [none]; rfl
    · exact absurd indent (by simp)

end ReadsLine

/-- On the first token of a line, what the scanner sees ahead is the indentation of the next row
with content. -/
theorem Reads.indentAhead {p f : Scanner} {ls : List TokenLine} (h : p.Reads ls f) :
    p.scan.indentAhead = Row.ahead (ls.map Row.ofTokenLine) := by
  induction h with
  | @done p atEnd empty =>
    have past : p.scan.pastIndent = p.scan := by rw [pastIndent, if_neg (by simp [atEnd])]
    rw [Scanner.indentAhead, past, if_neg (by simp [Token.isEmptyComment, atEnd]), if_pos atEnd]
    rfl
  | @line p e f l ls first later ih =>
    have blank := first.isBlank
    rw [Token.opensBlank] at blank
    rw [Scanner.indentAhead, List.map_cons, Row.ahead]
    cases comment : p.scan.pastIndent.token.isEmptyComment with
    | true =>
      have kind : p.scan.pastIndent.token.kind = .comment := by
        rw [Token.isEmptyComment, Bool.and_eq_true, beq_iff_eq] at comment
        exact comment.1
      rw [comment, Bool.or_true] at blank
      rw [blank, if_pos rfl, if_pos rfl, first.scan_of_comment kind]
      split
      · exact ih
      · next other =>
        obtain ⟨-, ⟨brk, -⟩ | ⟨atEnd, -⟩⟩ := first.stop_cases
        · exact absurd (first.stop ▸ brk) other
        · rw [later.of_endOfText (first.stop ▸ atEnd)]
          rfl
    | false =>
      rw [comment, Bool.or_false] at blank
      rw [if_neg Bool.false_ne_true, blank, first.indentHere]
      by_cases atEnd : p.scan.pastIndent.token.kind = .endOfText
      · rw [later.of_endOfText (first.stop_of_endOfText atEnd), atEnd]
        rfl
      · rw [if_neg atEnd, if_neg (by simpa using atEnd)]

end Scanner

end OffsideMarkup
