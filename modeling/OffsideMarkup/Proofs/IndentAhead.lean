/-
OffsideMarkup.Proofs.IndentAhead — what is seen ahead, in terms of the text.

At the first token of a line the scanner looks for the indentation of the next line with content.
It goes over blank lines token by token, and these come in several shapes: a line without characters
has an empty comment, one with space has an indentation in front of that, and the last line of a
text has no comment at all. Of the text there is less to say: among the lines from this one on, take
the first that has something else than space on it, and measure the space that it starts with.

* `ReadsLine.hasContent_ended` — a line is blank to the reader if its characters say so.
* `Reads.ahead_eq_indentOf` — the lines that are read ahead are those of the text to come.
* `drop_endedLines` gives the text to come its lines by number, so the answer is about the lines of
  the whole text.
* `counting_lookAhead` — a machine that looks ahead comes to an end.

The machine finds the same by stepping on and going back, and is then as it was before. It has no
measure that would bound its loop, but the loop goes over one blank line after the other, so it ends.
In any state, only one thing can stop it before it has found what it looks for: a place that cannot
be counted in a word (`BuildsCounting`). In a text that is not too long there is no such place.
-/
import OffsideMarkup.Proofs.BuilderTotal
import OffsideMarkup.Proofs.Coordinates
import OffsideMarkup.Proofs.LineTokens
import OffsideMarkup.Proofs.TokenStream

namespace OffsideMarkup

/-- The indentation of the first of these lines that has content, in UTF-16 units; 0 if none has. -/
def EndedLine.indentOf (ls : List EndedLine) : Nat :=
  (ls.find? EndedLine.hasContent).elim 0 fun l => unitLength l.space

namespace Scanner

variable {text : List Char} {s p e f : Scanner} {l : TokenLine} {ls : List TokenLine}

/-! ## 1. Lines ahead -/

/-- A line has content if it is not blank to the reader. Its break is no content. -/
theorem ReadsLine.hasContent_ended (h : p.ReadsLine l e) :
    l.ended.hasContent = !(Row.ofTokenLine l).isBlank := by
  have blank : (Row.ofTokenLine l).isBlank = l.source.all isSpace :=
    congrArg LineShape.blank h.shape
  have source : l.source = l.ended.content ++ l.stop.lexeme := by
    rw [TokenLine.source, Token.source, ← List.append_assoc]
    rfl
  have ending : l.stop.lexeme.all isSpace = true :=
    List.all_eq_true.mpr fun c hc => h.isSpace_stop c (List.mem_append_right _ hc)
  have content : l.ended.content.all isSpace = l.ended.content.all isInlineSpace := by
    rw [Bool.eq_iff_iff, List.all_eq_true, List.all_eq_true]
    exact forall₂_congr fun c hc => by rw [isSpace, h.unbroken_ended c hc, Bool.or_false]
  rw [blank, source, List.all_append, ending, content, Bool.and_true, List.not_all_eq_any_not]
  rfl

theorem Reads.ahead_eq_indentOf (h : p.Reads ls f) :
    Row.ahead (ls.map Row.ofTokenLine) = EndedLine.indentOf (endedLines p.rest) := by
  induction h with
  | @done p atEnd empty =>
    rw [rest_of_endOfText atEnd empty]
    rfl
  | @line p e f l ls first later ih =>
    have content := first.hasContent_ended
    rw [List.map_cons, Row.ahead, first.endedLines_rest, EndedLine.indentOf]
    cases blank : (Row.ofTokenLine l).isBlank with
    | false =>
      rw [blank] at content
      rw [if_neg (by decide), List.find?_cons_of_pos content, first.level_ofTokenLine,
        first.split_ended.1]
      rfl
    | true =>
      rw [blank] at content
      rw [if_pos rfl, List.find?_cons_of_neg (by simp [content])]
      obtain ⟨-, ⟨kind, -⟩ | ⟨kind, -⟩⟩ := first.stop_cases
      · rw [if_pos kind]
        exact ih
      · rw [if_neg (by simp [kind]), later.of_endOfText (first.stop ▸ kind)]
        rfl

/-! ## 2. In front of a line of a text -/

/-- In front of a line, what the scanner sees ahead are the lines of the text from that one on. -/
theorem Stands.indentAhead (h : p.Stands text) (opens : p.OpensLine) :
    p.scan.indentAhead
      = EndedLine.indentOf ((endedLines text).drop p.scan.token.start.line) := by
  obtain ⟨f, reads, -⟩ := reads_split p p [] opens rfl (by simp)
  obtain ⟨before, rfl, whole, stop⟩ := h.stop
  have column : (Location.origin.through before).column = 0 := stop ▸ opens.1
  rw [start_scan, stop, drop_endedLines whole column, reads.indentAhead, reads.ahead_eq_indentOf]

theorem Within.scanTimes (h : s.Within) (n : Nat) : (scanTimes n s).Within := by
  induction n generalizing s with
  | zero => exact h
  | succ n ih => exact ih h.scan

end Scanner

/-! ## 3. A machine that looks ahead -/

/-- The step ends with this answer and in this state, unless some place cannot be counted in a
word. -/
def BuildsCounting {α : Type} (m : Build α) (b : Builder) (a : α) (b' : Builder) : Prop :=
  Builds m b a b' ∨ m b = Part.some (.error .overflow)

theorem BuildsCounting.bind {α β : Type} {b b' b'' : Builder} {m : Build α} {next : α → Build β}
    {a : α} {c : β} (h : BuildsCounting m b a b') (h' : BuildsCounting (next a) b' c b'') :
    BuildsCounting (m >>= next) b c b'' := by
  have run : (m >>= next) b = Part.bind (m b) (ExceptT.bindCont fun x => next x.1 x.2) := rfl
  rcases h with built | overflow
  · rcases h' with later | overflow
    · exact .inl (built.bind later)
    · right
      rw [Builds] at built
      rw [run, built, Part.bind_some]
      exact overflow
  · right
    rw [run, overflow, Part.bind_some]
    rfl

namespace Build

variable {b : Builder}

theorem counting_bump (b : Builder) :
    BuildsCounting bump b () { b with scanner := b.scanner.scan } := by
  refine .bind (.inl (builds_get b)) ?_
  dsimp only
  cases b.scanner.scan.token.stop.fits with
  | true => exact .inl (builds_modify _ b)
  | false =>
    have thrown : BuildsCounting (throw .overflow : Build PUnit) b () b := by
      right
      show Part.bind (Part.some (Except.error Violation.overflow)) _ = _
      rw [Part.bind_some]
      rfl
    exact thrown.bind (.inl (builds_modify _ b))

theorem counting_pastIndent (b : Builder) :
    BuildsCounting pastIndent b b.scanner.indentHere
      { b with scanner := b.scanner.pastIndent } := by
  refine .bind (.inl (builds_isAt .indentation b)) ?_
  rw [Scanner.indentHere, Scanner.pastIndent]
  by_cases kind : b.scanner.token.kind = .indentation
  · rw [beq_iff_eq.mpr kind, if_pos kind, if_pos kind]
    exact .bind (.inl (builds_width b)) ((counting_bump b).bind (.inl (builds_pure _ _)))
  · rw [beq_eq_false_iff_ne.mpr kind, if_neg kind, if_neg kind]
    exact .inl (builds_pure 0 b)

/-- Over the break behind a blank line to the next line, if there is one. -/
theorem counting_nextLine (b : Builder) :
    BuildsCounting nextLine b (b.scanner.scan.token.kind == .lineBreak)
      { b with scanner := if b.scanner.scan.token.kind == .lineBreak then b.scanner.scan.scan
        else b.scanner.scan } := by
  refine (counting_bump b).bind (.bind (.inl (builds_isAt .lineBreak _)) ?_)
  cases b.scanner.scan.token.kind == .lineBreak with
  | true => exact (counting_bump _).bind (.inl (builds_pure true _))
  | false => exact .inl (builds_pure false _)

/-- At the end of the text, or in front of content, looking ahead stops. -/
theorem counting_findContent_stop (other : b.scanner.pastIndent.token.isEmptyComment = false) :
    BuildsCounting findContent b
      (if b.scanner.pastIndent.token.kind = .endOfText then 0 else b.scanner.indentHere)
      { b with scanner := b.scanner.pastIndent } := by
  have empty := builds_atEmptyComment { b with scanner := b.scanner.pastIndent }
  rw [other] at empty
  rw [findContent_eq]
  refine (counting_pastIndent b).bind
    (.bind (.inl empty) (.bind (.inl (builds_isAt .endOfText _)) ?_))
  by_cases atEnd : b.scanner.pastIndent.token.kind = .endOfText
  · rw [beq_iff_eq.mpr atEnd, if_pos atEnd]
    exact .inl (builds_pure 0 _)
  · rw [beq_eq_false_iff_ne.mpr atEnd, if_neg atEnd]
    exact .inl (builds_pure _ _)

/-- Going over blank lines ends in any case. -/
theorem counting_findContent (b : Builder) :
    ∃ s, BuildsCounting findContent b b.scanner.indentAhead { b with scanner := s } := by
  generalize here : b.scanner = s
  induction s using Scanner.indentAhead.induct generalizing b with
  | case1 s first blank brk ih =>
    subst here
    have empty := builds_atEmptyComment { b with scanner := b.scanner.pastIndent }
    have next := counting_nextLine { b with scanner := b.scanner.pastIndent }
    obtain ⟨s, later⟩ := ih { b with scanner := b.scanner.pastIndent.scan.scan } rfl
    rw [beq_iff_eq.mpr brk] at next
    rw [blank] at empty
    rw [Scanner.indentAhead, if_pos blank, if_pos brk, findContent_eq]
    exact ⟨s, (counting_pastIndent b).bind (.bind (.inl empty) (next.bind later))⟩
  | case2 s first blank other =>
    subst here
    have empty := builds_atEmptyComment { b with scanner := b.scanner.pastIndent }
    have next := counting_nextLine { b with scanner := b.scanner.pastIndent }
    rw [beq_eq_false_iff_ne.mpr other] at next
    rw [blank] at empty
    rw [Scanner.indentAhead, if_pos blank, if_neg other, findContent_eq]
    exact ⟨_, (counting_pastIndent b).bind
      (.bind (.inl empty) (next.bind (.inl (builds_pure 0 _))))⟩
  | case3 s first other =>
    subst here
    rw [Scanner.indentAhead, if_neg other]
    exact ⟨_, counting_findContent_stop (Bool.eq_false_iff.mpr other)⟩
  | case4 s first other =>
    subst here
    rw [Scanner.indentAhead, if_neg other]
    exact ⟨_, counting_findContent_stop (Bool.eq_false_iff.mpr other)⟩

/-- Looking ahead comes to an end in any state of the machine, and leaves it where it was. -/
theorem counting_lookAhead (b : Builder) :
    BuildsCounting lookAhead b b.scanner.indentAhead b := by
  obtain ⟨s, found⟩ := counting_findContent b
  exact .bind (.inl (builds_get b))
    (found.bind (.bind (.inl (builds_modify _ _)) (.inl (builds_pure _ b))))

end Build

/-- On the first token of a line, which is the first of the text or stands behind a line break, the
indentation ahead is that of the first line with content from this one on. A machine that looks for
it comes to an end, finds it, and is as it was before, unless it meets a place that it cannot count;
and in a text whose bytes can be counted it meets none. -/
theorem indent_ahead (text : List Char) (n : Nat)
    (first : n = 0 ∨ (Scanner.scanTimes n (.start text)).token.kind = .lineBreak) :
    let s := Scanner.scanTimes (n + 1) (.start text)
    s.indentAhead = EndedLine.indentOf ((endedLines text).drop s.token.start.line)
      ∧ (∀ b : Builder, b.scanner = s → BuildsCounting Build.lookAhead b s.indentAhead b)
      ∧ (byteLength text < wordBound →
          ∀ b : Builder, b.scanner = s → Builds Build.lookAhead b s.indentAhead b) := by
  intro s
  have opens : (Scanner.scanTimes n (.start text)).OpensLine := by
    rcases first with rfl | brk
    · exact Scanner.opensLine_start text
    · exact Scanner.opensLine_of_lineBreak brk
  refine ⟨?_, fun b here => here ▸ Build.counting_lookAhead b, fun short b here => ?_⟩
  · have stands := (Scanner.stands_start text).scanTimes n
    rw [show s = (Scanner.scanTimes n (.start text)).scan from Scanner.scanTimes_succ n _]
    exact stands.indentAhead opens
  · have within : b.scanner.Within := here ▸ (Scanner.within_start short).scanTimes (n + 1)
    rw [← here]
    exact Build.builds_lookAhead within

/-- From the second line of a text, over a line of space, to one that is indented by a tab. -/
theorem indent_ahead_of_blank_lines :
    (Scanner.scanTimes 2 (.start ['\n', ' ', '\n', '\t', '>'])).token.kind = .lineBreak
      ∧ (Scanner.scanTimes 3 (.start ['\n', ' ', '\n', '\t', '>'])).indentAhead = 1
      ∧ ∀ b : Builder, b.scanner = Scanner.scanTimes 3 (.start ['\n', ' ', '\n', '\t', '>']) →
          Builds Build.lookAhead b 1 b := by
  have brk :
      (Scanner.scanTimes 2 (.start ['\n', ' ', '\n', '\t', '>'])).token.kind = .lineBreak := by
    decide
  obtain ⟨level, -, builds⟩ := indent_ahead ['\n', ' ', '\n', '\t', '>'] 2 (.inr brk)
  have one := level.trans (show _ = 1 by decide)
  exact ⟨brk, one, fun b here => one ▸ builds (by decide) b here⟩

end OffsideMarkup
