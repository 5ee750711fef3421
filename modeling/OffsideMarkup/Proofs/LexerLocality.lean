/-
OffsideMarkup.Proofs.LexerLocality — the lexer does not look behind the end of a line.

The lexer is given all of the text that is left, so nothing keeps it from looking at the lines to
come. But from what is left of a line (`RestOfLine`) every loop of the lexer takes the same, whatever
comes behind it: a break stops it (`takeWhile`, `fragmentTail`), and where the break itself is taken,
that it is all of one break is part of `RestOfLine`. So a step on the line by itself is a step on the
line in its text, shifted to where the line starts (`scan_above`), and step by step the whole line is
read the same (`ReadsLine.eq_shift`).

The scanner in front of a line has come there from the line before, or it has not read anything yet.
That makes no difference to its next step, which only asks whether a line is opened.
-/
import OffsideMarkup.Proofs.LineShape
import OffsideMarkup.Proofs.ReaderShift

namespace OffsideMarkup

/-! ## 1. What the lexer takes -/

namespace RestOfLine

variable {after cs : List Char} {c : Char}

/-- The next character is one of the line, unless nothing is left of the text. -/
theorem head?_append (h : RestOfLine after cs) : (cs ++ after).head? = cs.head? := by
  cases h with
  | nothing atEnd => rw [atEnd]; rfl
  | brk brk =>
    obtain ⟨c, cs, rfl, -⟩ := brk.exists_cons
    rfl
  | char => rfl

section
variable {p : Char → Bool} (solid : ∀ c, isLineBreak c = true → p c = false)
include solid

theorem takeWhile_append (h : RestOfLine after cs) :
    (cs ++ after).takeWhile p = cs.takeWhile p := by
  induction h with
  | nothing atEnd => rw [atEnd]; rfl
  | brk brk =>
    obtain ⟨c, cs, rfl, first⟩ := brk.exists_cons
    rw [List.cons_append, List.takeWhile_cons_of_neg (by simp [solid c first]),
      List.takeWhile_cons_of_neg (by simp [solid c first])]
  | char _ _ ih => rw [List.cons_append, List.takeWhile_cons, List.takeWhile_cons, ih]

theorem dropWhile_append (h : RestOfLine after cs) :
    (cs ++ after).dropWhile p = cs.dropWhile p ++ after := by
  induction h with
  | nothing atEnd => rw [atEnd]; rfl
  | brk brk =>
    obtain ⟨c, cs, rfl, first⟩ := brk.exists_cons
    rw [List.cons_append, List.dropWhile_cons_of_neg (by simp [solid c first]),
      List.dropWhile_cons_of_neg (by simp [solid c first]), List.cons_append]
  | char _ _ ih =>
    rw [List.cons_append, List.dropWhile_cons, List.dropWhile_cons, ih]
    split <;> rfl

/-- What stops in front of a break leaves the rest of a line. -/
theorem dropWhile (h : RestOfLine after cs) : RestOfLine after (cs.dropWhile p) := by
  rw [← List.takeWhile_append_dropWhile (p := p) (l := cs)] at h
  refine h.of_append fun c hc => ?_
  cases brk : isLineBreak c with
  | false => rfl
  | true =>
    have taken := List.all_eq_true.mp List.all_takeWhile c hc
    rw [solid c brk] at taken
    exact absurd taken (by decide)

end

theorem fragmentTail_append (h : RestOfLine after cs) :
    fragmentTail (cs ++ after) = ((fragmentTail cs).1, (fragmentTail cs).2 ++ after) := by
  induction h with
  | nothing atEnd => rw [atEnd, List.append_nil, List.append_nil]
  | brk brk =>
    obtain ⟨c, cs, rfl, first⟩ := brk.exists_cons
    have stops : startsToken c = true := by rw [startsToken, first, Bool.or_true]
    rw [List.cons_append, fragmentTail, fragmentTail, if_pos stops, if_pos stops, List.cons_append]
  | @char c cs inner later ih =>
    -- What comes behind a run of space is seen before the end of the line is.
    have ahead : ((cs ++ after).dropWhile isInlineSpace).head?
        = (cs.dropWhile isInlineSpace).head? := by
      have solid := fun c => isInlineSpace_eq_false_of_isLineBreak (c := c)
      rw [later.dropWhile_append solid, (later.dropWhile solid).head?_append]
    rw [List.cons_append, fragmentTail, fragmentTail, ahead, ih]
    split
    · rfl
    · split <;> rfl

theorem lineBreakTail_append (h : IsBreak (c :: cs) after) :
    lineBreakTail c (cs ++ after) = ((lineBreakTail c cs).1, (lineBreakTail c cs).2 ++ after) := by
  cases h with
  | pair => rfl
  | single brk alone =>
    rw [List.nil_append]
    cases after with
    | nil => rfl
    | cons d ds =>
      have other : ¬(d = '\n' ∧ c = '\r') := fun both => alone ⟨both.2, congrArg some both.1⟩
      simp only [lineBreakTail]
      split
      · next e =>
        obtain ⟨rfl, rfl⟩ := List.cons.inj e
        rw [if_neg (by simpa using other)]
        rfl
      · rfl

/-- Whether a brace is doubled is seen inside the line. -/
theorem pair_append (h : RestOfLine after (c :: cs)) {d : Char} (inner : isLineBreak d = false) :
    (c == d && (cs ++ after).head? == some d) = (c == d && cs.head? == some d) := by
  by_cases same : c = d
  · subst same
    rw [(h.tail inner).head?_append]
  · rw [beq_false_of_ne same, Bool.false_and, Bool.false_and]

theorem lexeme_append (h : RestOfLine after cs) (opening : Bool) :
    lexeme opening (cs ++ after) =
      ((lexeme opening cs).1, (lexeme opening cs).2.1, (lexeme opening cs).2.2 ++ after) := by
  cases cs with
  | nil =>
    cases h with
    | nothing atEnd => rw [atEnd]; rfl
    | brk brk => exact absurd brk.exists_cons (by simp)
  | cons c cs =>
    have plain : ∀ c, isLineBreak c = true → (!isLineBreak c) = false := by simp
    have take := h.takeWhile_append plain
    have drop := h.dropWhile_append plain
    rw [List.cons_append] at take drop ⊢
    simp only [lexeme, take, drop, h.pair_append (d := '{') (by decide),
      h.pair_append (d := '}') (by decide)]
    split
    · rfl
    · split
      · rfl
      · split
        · next double => cases cs <;> simp at double ⊢
        · split
          · next double => cases cs <;> simp at double ⊢
          · split
            · next brk => rw [lineBreakTail_append (h.isBreak brk)]
            · next inner => rw [(h.tail (by simpa using inner)).fragmentTail_append]

/-- A token of a line is cut the same from the line and from the text, save for its place. -/
theorem cut_append (h : RestOfLine after cs) (previous : Kind) (here base : Location) :
    cut previous (here.shift base) (cs ++ after)
      = ((cut previous here cs).1.shift base, (cut previous here cs).2 ++ after) := by
  have solid := fun c => isInlineSpace_eq_false_of_isLineBreak (c := c)
  have take := h.takeWhile_append solid
  have drop := h.dropWhile_append solid
  by_cases indented : here.column = 0 ∧ cs.takeWhile isInlineSpace ≠ []
  · have column : (here.shift base).column = 0 := indented.1
    rw [cut_of_indented column (take ▸ indented.2), cut_of_indented indented.1 indented.2, take,
      drop]
    rfl
  · have later : ¬((here.shift base).column = 0 ∧ (cs ++ after).takeWhile isInlineSpace ≠ []) :=
      take ▸ indented
    have content := (h.dropWhile solid).lexeme_append previous.opensLine
    rw [cut_of_content later, cut_of_content indented, take, drop, content]
    rfl

end RestOfLine

/-! ## 2. The lexer on a line by itself -/

namespace Scanner

variable {s p q e f : Scanner} {base : Location} {after : List Char}

/-- The scanner on a line of a text, given the one on the line by itself. -/
def above (s : Scanner) (base : Location) (after : List Char) : Scanner :=
  ⟨s.token.shift base, s.rest ++ after⟩

/-- A step depends on the kind of the token before only so far as it opens a line. -/
theorem scan_eq_above (rest : RestOfLine after s.rest)
    (opening : q.token.kind.opensLine = s.token.kind.opensLine)
    (place : q.token.stop = s.token.stop.shift base) (text : q.rest = s.rest ++ after) :
    q.scan = s.scan.above base after := by
  have same : cut q.token.kind q.token.stop q.rest = cut s.token.kind q.token.stop q.rest := by
    rw [cut, cut, opening]
  rw [scan, same, place, text, rest.cut_append]
  rfl

theorem scan_above (rest : RestOfLine after s.rest) :
    (s.above base after).scan = s.scan.above base after :=
  scan_eq_above rest rfl (Token.shift_stop base s.token) rfl

/-- Unless the scanner stands on the end of its line, it has the rest of the line in front of it. -/
def Inside (after : List Char) (s : Scanner) : Prop :=
  s.token.kind.endsLine = false → RestOfLine after s.rest

theorem inside_scan (rest : RestOfLine after s.rest) : s.scan.Inside after := by
  intro inner
  rw [← s.source_scan] at rest
  exact rest.of_append (unbroken_scan (Kind.ne_of_endsLine_eq_false inner).1)

/-- Up to the end of the line, the tokens that are passed in the text are those of the line. -/
theorem Passes.above {ts us : List Token} (alone : s.Passes ts e)
    (there : (s.above base after).Passes us f)
    (inside : s.Inside after) (inner : ∀ t ∈ ts, t.kind.endsLine = false)
    (inner' : ∀ t ∈ us, t.kind.endsLine = false)
    (ends : e.token.kind.endsLine = true) (ends' : f.token.kind.endsLine = true) :
    us = ts.map (·.shift base) ∧ f.token = e.token.shift base := by
  induction ts generalizing s us with
  | nil =>
    rw [Passes] at alone
    subst alone
    cases us with
    | nil =>
      rw [Passes] at there
      subst there
      exact ⟨rfl, rfl⟩
    | cons u us =>
      have := inner' u List.mem_cons_self
      rw [← there.1] at this
      exact absurd (this.symm.trans ends) (by decide)
  | cons t ts ih =>
    obtain ⟨rfl, alone⟩ := alone
    have first := inner s.token List.mem_cons_self
    cases us with
    | nil =>
      rw [Passes] at there
      rw [← there] at ends'
      exact absurd (first.symm.trans ends') (by decide)
    | cons u us =>
      obtain ⟨rfl, there⟩ := there
      rw [scan_above (inside first)] at there
      obtain ⟨same, stop⟩ := ih alone there (inside_scan (inside first))
        (fun t ht => inner t (.tail _ ht)) (fun t ht => inner' t (.tail _ ht))
      exact ⟨by rw [same]; rfl, stop⟩

theorem indent?_above (s : Scanner) :
    (s.above base after).indent? = s.indent?.map (·.shift base) := by
  rw [indent?, indent?]
  show (if s.token.kind = .indentation then _ else _) = _
  split <;> rfl

theorem pastIndent_above (inside : s.Inside after) :
    (s.above base after).pastIndent = s.pastIndent.above base after := by
  by_cases indentation : s.token.kind = .indentation
  · rw [pastIndent, pastIndent, if_pos indentation, if_pos (by exact indentation)]
    exact scan_above (inside (by rw [indentation]; rfl))
  · rw [pastIndent, pastIndent, if_neg indentation, if_neg (by exact indentation)]

theorem inside_pastIndent (inside : s.Inside after) : s.pastIndent.Inside after := by
  rw [pastIndent]
  split
  · next indentation => exact inside_scan (inside (by rw [indentation]; rfl))
  · exact inside

namespace ReadsLine

variable {l : TokenLine}

/-- A line is read the same in a text and by itself. -/
theorem eq_shift {l' : TokenLine} {e' : Scanner} (there : q.ReadsLine l e)
    (alone : (Scanner.start l.source).ReadsLine l' e') : l = l'.shift q.token.stop := by
  have rest : RestOfLine e.rest (Scanner.start l.source).rest := there.restOfLine
  have place : q.token.stop = (Scanner.start l.source).token.stop.shift q.token.stop :=
    (Location.shift_origin q.token.stop there.opens.1).symm
  have first : q.scan = (Scanner.start l.source).scan.above q.token.stop e.rest :=
    scan_eq_above rest there.opens.kind_opensLine place there.rest.symm
  have inside := inside_scan rest
  have body := there.body
  rw [first, pastIndent_above inside] at body
  obtain ⟨same, stop⟩ := alone.body.above body (inside_pastIndent inside) alone.inner there.inner
    (alone.stop ▸ alone.ends) (there.stop ▸ there.ends)
  have indent := there.indent
  rw [first, indent?_above, ← alone.indent] at indent
  rw [there.stop, alone.stop] at stop
  calc l = ⟨l.indent, l.body, l.stop⟩ := rfl
    _ = l'.shift q.token.stop := by rw [indent, same, stop]; rfl

/-- By itself, a line of a text is a text of one line. -/
theorem ofText_source (there : q.ReadsLine l e) :
    ∃ l', TokenLine.ofText l.source = [l'] ∧ l = l'.shift q.token.stop := by
  obtain ⟨f, reads, -⟩ := reads_ofText l.source
  have lines : (TokenLine.ofText l.source).map TokenLine.source = [l.source] := by
    have one := there.restOfLine.alone.physicalLines there.source_ne_nil
    rw [List.append_nil] at one
    exact reads.physicalLines.symm.trans one
  obtain ⟨l', single, -⟩ := List.map_eq_singleton_iff.mp lines
  rw [single] at reads
  cases reads with
  | line first => exact ⟨l', single, there.eq_shift first⟩

end ReadsLine

end Scanner

end OffsideMarkup
