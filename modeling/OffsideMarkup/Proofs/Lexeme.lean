/-
OffsideMarkup.Proofs.Lexeme — what one step of the lexer can give.

`Lexes` lists the ways in which a lexeme comes about, one constructor for each, with all that is
known about the text in front of the lexer. `lexes` says that the lexer gives nothing else, so a
property of every token is a case analysis over `Lexes` and nobody looks into `lexeme` again.

A token differs from its lexeme by the space in front, and one token is nothing but space: the
indentation (`indented`, `cut_of_content`).
-/
import OffsideMarkup.Proofs.PhysicalLine
import OffsideMarkup.Token

namespace OffsideMarkup

/-! ## 1. Sigils -/

/-- The sigils and their kinds. -/
def sigils : List (Char × Kind) :=
  [('>', .greaterThan), ('#', .hashSign), ('%', .percentSign), ('@', .atSign), ('.', .dot),
   ('|', .bar), ('+', .plus), ('-', .minus), ('=', .equals), (':', .colon)]

theorem mem_sigils {c : Char} {k : Kind} (h : sigilKind? c = some k) : (c, k) ∈ sigils := by
  simp only [sigilKind?] at h
  repeat' split at h
  all_goals simp_all [sigils]

/-- A sigil is a character of content, and its kind is no kind of space. -/
theorem sigil_is_content {c : Char} {k : Kind} (h : sigilKind? c = some k) :
    isLineBreak c = false ∧ isInlineSpace c = false ∧ k ≠ .endOfText ∧ k ≠ .lineBreak
      ∧ k ≠ .indentation ∧ k ≠ .comment ∧ k ≠ .unknown := by
  have all : ∀ s ∈ sigils, isLineBreak s.1 = false ∧ isInlineSpace s.1 = false ∧ s.2 ≠ .endOfText
      ∧ s.2 ≠ .lineBreak ∧ s.2 ≠ .indentation ∧ s.2 ≠ .comment ∧ s.2 ≠ .unknown := by decide
  exact all (c, k) (mem_sigils h)

theorem opensLine_of_sigil {c : Char} {k : Kind} (h : sigilKind? c = some k) :
    k.opensLine = false := by
  have all : ∀ s ∈ sigils, s.2.opensLine = false := by decide
  exact all (c, k) (mem_sigils h)

/-! ## 2. Lexemes -/

/-- The ways in which a text, without space in front, gives a lexeme: its kind, its characters and
what is left. -/
inductive Lexes (opening : Bool) : List Char → Kind → List Char → List Char → Prop
  | endOfText : Lexes opening [] .endOfText [] []
  | sigil {c : Char} {k : Kind} (cs : List Char) (h : sigilKind? c = some k) :
      Lexes opening (c :: cs) k [c] cs
  | comment {c : Char} (cs : List Char) (first : opening = true) (h : sigilKind? c = none) :
      Lexes opening (c :: cs) .comment ((c :: cs).takeWhile (!isLineBreak ·))
        ((c :: cs).dropWhile (!isLineBreak ·))
  | mustacheOpen (cs : List Char) (later : opening = false) :
      Lexes opening ('{' :: '{' :: cs) .mustacheOpen ['{', '{'] cs
  | mustacheClose (cs : List Char) (later : opening = false) :
      Lexes opening ('}' :: '}' :: cs) .mustacheClose ['}', '}'] cs
  | lineBreak {brk cs : List Char} (later : opening = false) (h : IsBreak brk cs) :
      Lexes opening (brk ++ cs) .lineBreak brk cs
  | textFragment {c : Char} (cs : List Char) (later : opening = false)
      (h : isLineBreak c = false) :
      Lexes opening (c :: cs) .textFragment (c :: (fragmentTail cs).1) (fragmentTail cs).2

theorem isBreak_lineBreakTail {c : Char} (h : isLineBreak c = true) (cs : List Char) :
    IsBreak (c :: (lineBreakTail c cs).1) (lineBreakTail c cs).2 := by
  unfold lineBreakTail
  split
  · split
    · next hc =>
      rw [beq_iff_eq] at hc
      subst hc
      exact .pair _
    · next hc => exact .single h fun both => hc (by simp [both.1])
  · next tail =>
    refine .single h fun both => ?_
    cases cs with
    | nil => exact absurd both.2 (by simp)
    | cons d ds => exact tail ds (by simpa using both.2)

/-- Every lexeme comes about in one of these ways. -/
theorem lexes (opening : Bool) (cs : List Char) :
    Lexes opening cs (lexeme opening cs).1 (lexeme opening cs).2.1 (lexeme opening cs).2.2 := by
  cases cs with
  | nil => exact .endOfText
  | cons c cs =>
    simp only [lexeme]
    split
    · next k h => exact .sigil cs h
    · next h =>
      split
      · next first => exact .comment cs first h
      · next first =>
        have later : opening = false := by simpa using first
        split
        · next pair =>
          simp only [Bool.and_eq_true, beq_iff_eq] at pair
          obtain ⟨rfl, second⟩ := pair
          cases cs with
          | nil => simp at second
          | cons d ds => simp only [List.head?_cons, Option.some.injEq] at second
                         subst second
                         exact .mustacheOpen ds later
        · split
          · next pair =>
            simp only [Bool.and_eq_true, beq_iff_eq] at pair
            obtain ⟨rfl, second⟩ := pair
            cases cs with
            | nil => simp at second
            | cons d ds => simp only [List.head?_cons, Option.some.injEq] at second
                           subst second
                           exact .mustacheClose ds later
          · split
            · next brk =>
              have whole : c :: cs = (c :: (lineBreakTail c cs).1) ++ (lineBreakTail c cs).2 := by
                rw [List.cons_append, lineBreakTail_append]
              conv => arg 2; rw [whole]
              exact .lineBreak later (isBreak_lineBreakTail brk cs)
            · next brk => exact .textFragment cs later (by simpa using brk)

theorem unbroken_fragmentTail (cs : List Char) : Unbroken (fragmentTail cs).1 := by
  induction cs with
  | nil => intro c hc; simp [fragmentTail] at hc
  | cons c cs ih =>
    unfold fragmentTail
    split
    · intro d hd; simp at hd
    · next content =>
      split
      · intro d hd; simp at hd
      · intro d hd
        rcases List.mem_cons.mp hd with rfl | hd
        · simp only [startsToken, Bool.or_eq_true, not_or, Bool.not_eq_true] at content
          exact content.2
        · exact ih d hd

/-- The end of the text has no characters, and nothing behind it. -/
theorem Lexes.of_endOfText {opening : Bool} {cs lx rest : List Char}
    (l : Lexes opening cs .endOfText lx rest) : cs = [] ∧ lx = [] ∧ rest = [] := by
  cases l with
  | endOfText => exact ⟨rfl, rfl, rfl⟩
  | sigil cs h => exact absurd rfl (sigil_is_content h).2.2.1

/-- Nothing gives the end of the text. -/
theorem Lexes.of_nil {opening : Bool} {k : Kind} {lx rest : List Char}
    (l : Lexes opening [] k lx rest) : k = .endOfText := by
  generalize nothing : [] = text at l
  cases l with
  | endOfText => rfl
  | lineBreak later brk => cases brk <;> exact absurd nothing (by simp)
  | _ => exact absurd nothing (by simp)

/-- The characters of a line break are the break, and it does not open a line. -/
theorem Lexes.of_lineBreak {opening : Bool} {cs lx rest : List Char}
    (l : Lexes opening cs .lineBreak lx rest) : opening = false ∧ IsBreak lx rest := by
  cases l with
  | lineBreak later h => exact ⟨later, h⟩
  | sigil cs h => exact absurd rfl (sigil_is_content h).2.2.2.1

/-- In the middle of a line, what starts with a break is a break. -/
theorem Lexes.of_isLineBreak {c : Char} {cs lx rest : List Char} {k : Kind}
    (l : Lexes false (c :: cs) k lx rest) (h : isLineBreak c = true) : k = .lineBreak := by
  generalize whole : c :: cs = text at l
  cases l with
  | endOfText => exact absurd whole (by simp)
  | sigil _ sig =>
    obtain ⟨rfl, -⟩ := List.cons.inj whole
    rw [(sigil_is_content sig).1] at h
    exact absurd h (by decide)
  | comment _ first => exact absurd first (by decide)
  | mustacheOpen => obtain ⟨rfl, -⟩ := List.cons.inj whole; exact absurd h (by decide)
  | mustacheClose => obtain ⟨rfl, -⟩ := List.cons.inj whole; exact absurd h (by decide)
  | lineBreak => rfl
  | textFragment _ _ content =>
    obtain ⟨rfl, -⟩ := List.cons.inj whole
    rw [content] at h
    exact absurd h (by decide)

theorem Lexes.kind_ne_indentation {opening : Bool} {cs lx rest : List Char} {k : Kind}
    (l : Lexes opening cs k lx rest) : k ≠ .indentation := by
  rintro rfl
  cases l with
  | sigil cs h => exact (sigil_is_content h).2.2.2.2.1 rfl

/-- No other lexeme has a line break in it. -/
theorem Lexes.unbroken {opening : Bool} {cs lx rest : List Char} {k : Kind}
    (l : Lexes opening cs k lx rest) (h : k ≠ .lineBreak) : Unbroken lx := by
  cases l with
  | endOfText => intro c hc; simp at hc
  | sigil cs s => simpa [Unbroken] using (sigil_is_content s).1
  | comment cs first s =>
    intro c hc
    simpa using (List.all_eq_true.mp List.all_takeWhile) c hc
  | mustacheOpen cs later =>
    exact List.forall_mem_cons.mpr ⟨rfl, List.forall_mem_singleton.mpr rfl⟩
  | mustacheClose cs later =>
    exact List.forall_mem_cons.mpr ⟨rfl, List.forall_mem_singleton.mpr rfl⟩
  | lineBreak later brk => exact absurd rfl h
  | textFragment cs later content =>
    intro c hc
    rcases List.mem_cons.mp hc with rfl | hc
    · exact content
    · exact unbroken_fragmentTail cs c hc

/-- In the middle of a line every lexeme has characters, and what follows it does not open a line
either, as long as the line goes on. -/
theorem Lexes.inside {cs lx rest : List Char} {k : Kind} (l : Lexes false cs k lx rest)
    (atEnd : k ≠ .endOfText) : lx ≠ [] ∧ (k ≠ .lineBreak → k.opensLine = false) := by
  cases l with
  | endOfText => exact absurd rfl atEnd
  | sigil _ sig => exact ⟨by simp, fun _ => opensLine_of_sigil sig⟩
  | comment _ first => exact absurd first (by decide)
  | mustacheOpen => exact ⟨by simp, fun _ => rfl⟩
  | mustacheClose => exact ⟨by simp, fun _ => rfl⟩
  | lineBreak later brk => exact ⟨by cases brk <;> simp, fun other => absurd rfl other⟩
  | textFragment => exact ⟨by simp, fun _ => rfl⟩

/-! ## 3. Tokens -/

section
variable {previous : Kind} {here : Location} {text : List Char}

/-- Space where a line starts is the indentation. -/
theorem cut_of_indented (column : here.column = 0) (space : text.takeWhile isInlineSpace ≠ []) :
    cut previous here text =
      (⟨.indentation, here, [], text.takeWhile isInlineSpace⟩, text.dropWhile isInlineSpace) := by
  rw [cut, if_pos ⟨column, space⟩]

/-- Anywhere else a lexeme follows, with the space in front of it. -/
theorem cut_of_content (h : ¬(here.column = 0 ∧ text.takeWhile isInlineSpace ≠ [])) :
    cut previous here text =
      (⟨(lexeme previous.opensLine (text.dropWhile isInlineSpace)).1, here,
          text.takeWhile isInlineSpace,
          (lexeme previous.opensLine (text.dropWhile isInlineSpace)).2.1⟩,
        (lexeme previous.opensLine (text.dropWhile isInlineSpace)).2.2) := by
  rw [cut, if_neg h]

theorem start_cut (previous : Kind) (here : Location) (text : List Char) :
    (cut previous here text).1.start = here := by
  rw [cut]
  split <;> rfl

end

end OffsideMarkup
