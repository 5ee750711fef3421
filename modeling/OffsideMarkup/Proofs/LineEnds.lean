/-
OffsideMarkup.Proofs.LineEnds — a text with other line breaks has the same token lines.

`unifyBreaks` puts a line feed in the place of every break of a text, of a carriage return with its
line feed as much as of a separator. A break stops every loop of the lexer, whichever it is, so the
lexer takes the same from both texts up to the break (`lexeme_unifyBreaks`, `cut_unifyBreaks`), and
the break itself differs in its characters only (`Token.unify`).

Behind the first break the bytes are others. So two lines are compared by themselves, where both
start at the start of a text (`unify_of_single`), and are put back to where they stand in their
texts then (`TokenLine.Twins`). What is left of the difference is where a line starts, counted in
bytes and units, and the characters of its break.
-/
import OffsideMarkup.Proofs.LineLocality

namespace OffsideMarkup

/-! ## 1. Line feeds for breaks -/

/-- A text with a line feed in the place of each line break. -/
def unifyBreaks : List Char → List Char
  | [] => []
  | '\r' :: '\n' :: cs => '\n' :: unifyBreaks cs
  | c :: cs => (if isLineBreak c then '\n' else c) :: unifyBreaks cs

example : unifyBreaks ['a', '\r', '\n', '\r', 'b', '\u2028'] = ['a', '\n', '\n', 'b', '\n'] := by
  decide

section

variable {brk cs after : List Char} {c : Char}

theorem unifyBreaks_char (h : isLineBreak c = false) (cs : List Char) :
    unifyBreaks (c :: cs) = c :: unifyBreaks cs := by
  rw [unifyBreaks]
  · rw [h]
    rfl
  · rintro ds rfl
    exact absurd h (by decide)

theorem unifyBreaks_break (h : IsBreak brk after) :
    unifyBreaks (brk ++ after) = '\n' :: unifyBreaks after := by
  cases h with
  | pair => rfl
  | single h alone =>
    rw [List.singleton_append, unifyBreaks, if_pos h]
    rintro ds rfl
    intro rest
    exact alone ⟨rfl, by rw [rest]; rfl⟩

theorem unifyBreaks_unbroken (h : Unbroken cs) : unifyBreaks cs = cs := by
  induction cs with
  | nil => rfl
  | cons c cs ih =>
    rw [unifyBreaks_char (h c List.mem_cons_self), ih fun d hd => h d (.tail c hd)]

/-- A line feed is a break, whatever stands behind it. -/
theorem isBreak_lineFeed (after : List Char) : IsBreak ['\n'] after := .single rfl (by simp)

theorem unifyBreaks_isBreak (h : IsBreak brk after) : unifyBreaks brk = ['\n'] := by
  have alone := unifyBreaks_break h.alone
  rwa [List.append_nil] at alone

/-- The lines of the one text are those of the other. -/
theorem physicalLines_unifyBreaks (text : List Char) :
    physicalLines (unifyBreaks text) = (physicalLines text).map unifyBreaks := by
  induction text using byBreaks with
  | nil => rfl
  | char c cs inner ih =>
    rw [unifyBreaks_char inner, physicalLines_cons inner, physicalLines_cons inner, ih]
    cases physicalLines cs with
    | nil => rw [List.map_nil, List.map_singleton, unifyBreaks_char inner]; rfl
    | cons l ls => rw [List.map_cons, List.map_cons, unifyBreaks_char inner]
  | brk b cs h ih =>
    rw [unifyBreaks_break h, physicalLines_break h, List.map_cons, ← ih, unifyBreaks_isBreak h]
    exact physicalLines_break (isBreak_lineFeed (unifyBreaks cs))

/-! ## 2. What the lexer takes -/

section
variable {p : Char → Bool} (solid : ∀ c, isLineBreak c = true → p c = false)
include solid

/-- A break stops a run of characters that may not be breaks. -/
theorem head_of_break (h : IsBreak brk after) :
    (brk ++ after).takeWhile p = [] ∧ (brk ++ after).dropWhile p = brk ++ after := by
  obtain ⟨c, cs, rfl, first⟩ := h.exists_cons
  rw [List.cons_append, List.takeWhile_cons_of_neg (by simp [solid c first]),
    List.dropWhile_cons_of_neg (by simp [solid c first])]
  exact ⟨rfl, rfl⟩

theorem takeWhile_unifyBreaks (text : List Char) :
    (unifyBreaks text).takeWhile p = text.takeWhile p := by
  induction text using byBreaks with
  | nil => rfl
  | char c cs inner ih => rw [unifyBreaks_char inner, List.takeWhile_cons, List.takeWhile_cons, ih]
  | brk b cs h =>
    rw [unifyBreaks_break h, (head_of_break solid h).1]
    exact (head_of_break solid (isBreak_lineFeed _)).1

theorem dropWhile_unifyBreaks (text : List Char) :
    (unifyBreaks text).dropWhile p = unifyBreaks (text.dropWhile p) := by
  induction text using byBreaks with
  | nil => rfl
  | char c cs inner ih =>
    rw [unifyBreaks_char inner, List.dropWhile_cons, List.dropWhile_cons, ih]
    split
    · rfl
    · rw [unifyBreaks_char inner]
  | brk b cs h =>
    rw [unifyBreaks_break h, (head_of_break solid h).2, unifyBreaks_break h]
    exact (head_of_break solid (isBreak_lineFeed _)).2

end

theorem startsToken_of_isLineBreak (h : isLineBreak c = true) : startsToken c = true := by
  rw [startsToken, h, Bool.or_true]

/-- A text starts with a character that ends a fragment, or it does not, whatever its breaks are. -/
theorem head?_any_startsToken_unifyBreaks (text : List Char) :
    (unifyBreaks text).head?.any startsToken = text.head?.any startsToken := by
  cases text using byBreaks with
  | nil => rfl
  | char c cs inner => rw [unifyBreaks_char inner]; rfl
  | brk b cs h =>
    rw [unifyBreaks_break h]
    obtain ⟨c, ds, rfl, first⟩ := h.exists_cons
    exact (startsToken_of_isLineBreak first).symm

theorem fragmentTail_unifyBreaks (text : List Char) :
    fragmentTail (unifyBreaks text)
      = ((fragmentTail text).1, unifyBreaks (fragmentTail text).2) := by
  have stopped : ∀ {brk after : List Char}, IsBreak brk after →
      fragmentTail (brk ++ after) = ([], brk ++ after) := by
    intro brk after h
    obtain ⟨c, cs, rfl, first⟩ := h.exists_cons
    rw [List.cons_append, fragmentTail, if_pos (startsToken_of_isLineBreak first)]
  induction text using byBreaks with
  | nil => rfl
  | char c cs inner ih =>
    have solid := fun c => isInlineSpace_eq_false_of_isLineBreak (c := c)
    have ahead : ((unifyBreaks cs).dropWhile isInlineSpace).head?.any startsToken
        = (cs.dropWhile isInlineSpace).head?.any startsToken := by
      rw [dropWhile_unifyBreaks solid, head?_any_startsToken_unifyBreaks]
    rw [unifyBreaks_char inner, fragmentTail, fragmentTail, ahead, ih]
    split
    · rw [unifyBreaks_char inner]
    · split
      · rw [unifyBreaks_char inner]
      · rfl
  | brk b cs h =>
    rw [stopped h, unifyBreaks_break h]
    exact stopped (isBreak_lineFeed (unifyBreaks cs))

/-- A break is a token of its own, or what ends the empty comment of a blank line. -/
theorem lexeme_break (h : IsBreak brk after) (opening : Bool) :
    lexeme opening (brk ++ after)
      = if opening then (.comment, [], brk ++ after) else (.lineBreak, brk, after) := by
  have all : ∀ b ∈ [['\r', '\n'], ['\n'], ['\r'], ['\u2028'], ['\u2029']],
      lexeme true b = (.comment, [], b) ∧ lexeme false b = (.lineBreak, b, []) := by decide
  have one : brk ∈ [['\r', '\n'], ['\n'], ['\r'], ['\u2028'], ['\u2029']] := by
    cases h with
    | pair => simp
    | single h => simpa [isLineBreak, or_assoc] using h
  rw [(RestOfLine.brk h).lexeme_append]
  cases opening with
  | true => rw [(all brk one).1]; rfl
  | false => rw [(all brk one).2]; rfl

/-- A brace is doubled in both texts, or in none. -/
theorem head?_unifyBreaks {d : Char} (inner : isLineBreak d = false) (text : List Char) :
    ((unifyBreaks text).head? == some d) = (text.head? == some d) := by
  cases text using byBreaks with
  | nil => rfl
  | char c cs inner => rw [unifyBreaks_char inner]; rfl
  | brk b cs h =>
    have other : ∀ c, isLineBreak c = true → (some c == some d) = false := by
      intro c brk
      rw [beq_eq_false_iff_ne]
      intro same
      rw [Option.some.inj same, inner] at brk
      exact absurd brk (by decide)
    rw [unifyBreaks_break h]
    obtain ⟨c, ds, rfl, first⟩ := h.exists_cons
    exact (other '\n' rfl).trans (other c first).symm

theorem tail_unifyBreaks {d : Char} (inner : isLineBreak d = false)
    (h : (cs.head? == some d) = true) : (unifyBreaks cs).tail = unifyBreaks cs.tail := by
  cases cs with
  | nil => rfl
  | cons c cs =>
    obtain rfl : c = d := by simpa using h
    rw [unifyBreaks_char inner]
    rfl

/-- The lexer takes the same from both texts. -/
theorem lexeme_unifyBreaks (opening : Bool) (text : List Char) :
    lexeme opening (unifyBreaks text)
      = ((lexeme opening text).1, unifyBreaks (lexeme opening text).2.1,
          unifyBreaks (lexeme opening text).2.2) := by
  cases text using byBreaks with
  | nil => rfl
  | brk b cs h =>
    have lineFeed := lexeme_break (isBreak_lineFeed (unifyBreaks cs)) opening
    rw [unifyBreaks_break h, lexeme_break h]
    refine lineFeed.trans ?_
    cases opening with
    | true => rw [if_pos rfl, if_pos rfl, unifyBreaks_break h]; rfl
    | false => rw [if_neg (by decide), if_neg (by decide), unifyBreaks_isBreak h]
  | char c cs inner =>
    have plain : ∀ c, isLineBreak c = true → (!isLineBreak c) = false := by simp
    have take := takeWhile_unifyBreaks plain (c :: cs)
    have drop := dropWhile_unifyBreaks plain (c :: cs)
    have words : Unbroken ((c :: cs).takeWhile (!isLineBreak ·)) := fun d hd => by
      simpa using List.all_eq_true.mp List.all_takeWhile d hd
    rw [unifyBreaks_char inner] at take drop ⊢
    simp only [lexeme]
    rw [take, drop, head?_unifyBreaks (d := '{') (by decide),
      head?_unifyBreaks (d := '}') (by decide), fragmentTail_unifyBreaks, inner]
    split
    · rw [unifyBreaks_char inner]
      rfl
    · split
      · rw [unifyBreaks_unbroken words]
      · split
        · next double =>
          rw [tail_unifyBreaks (d := '{') (by decide) (Bool.and_eq_true_iff.mp double).2]
          rfl
        · split
          · next double =>
            rw [tail_unifyBreaks (d := '}') (by decide) (Bool.and_eq_true_iff.mp double).2]
            rfl
          · rw [if_neg Bool.false_ne_true, if_neg Bool.false_ne_true, unifyBreaks_char inner,
              unifyBreaks_unbroken (unbroken_fragmentTail cs)]

end

/-! ## 3. Tokens -/

/-- The token with a line feed for its break, if it is one. -/
def Token.unify (t : Token) : Token := { t with lexeme := unifyBreaks t.lexeme }

theorem Token.unify_unbroken {t : Token} (h : Unbroken t.source) : t.unify = t := by
  rw [unify, unifyBreaks_unbroken (unbroken_append.mp h).2]

/-- A token of the one text is cut where one of the other is. -/
theorem cut_unifyBreaks (previous : Kind) (here : Location) (text : List Char) :
    cut previous here (unifyBreaks text)
      = ((cut previous here text).1.unify, unifyBreaks (cut previous here text).2) := by
  have solid := fun c => isInlineSpace_eq_false_of_isLineBreak (c := c)
  have take := takeWhile_unifyBreaks solid text
  have drop := dropWhile_unifyBreaks solid text
  by_cases indented : here.column = 0 ∧ text.takeWhile isInlineSpace ≠ []
  · have space := unbroken_of_inlineSpace (inlineSpace_takeWhile text)
    rw [cut_of_indented indented.1 (take ▸ indented.2), cut_of_indented indented.1 indented.2,
      Token.unify, take, drop, unifyBreaks_unbroken space]
  · rw [cut_of_content (take ▸ indented), cut_of_content indented, take, drop, lexeme_unifyBreaks]
    rfl

namespace Scanner

/-- The scanner that has come just as far in the text with line feeds. -/
def unify (s : Scanner) : Scanner := ⟨s.token.unify, unifyBreaks s.rest⟩

/-- As long as no break is passed, a step in the one text is a step in the other. -/
theorem scan_unify {s : Scanner} (inner : s.token.unify = s.token) :
    s.unify.scan = s.scan.unify := by
  show (⟨(cut s.token.unify.kind s.token.unify.stop (unifyBreaks s.rest)).1,
    (cut s.token.unify.kind s.token.unify.stop (unifyBreaks s.rest)).2⟩ : Scanner) = _
  rw [inner, cut_unifyBreaks]
  rfl

end Scanner

/-! ## 4. Lines -/

/-- The line with a line feed for its break. -/
def TokenLine.unify (l : TokenLine) : TokenLine := { l with stop := l.stop.unify }

namespace TokenLine

variable {t : Token} {before ts : List Token}

theorem unify_ofTokens (ts : List Token) (stop : Token) :
    (ofTokens ts stop).unify = ofTokens ts stop.unify := by
  cases ts with
  | nil => rfl
  | cons t ts =>
    rw [ofTokens, ofTokens]
    split <;> rfl

theorem split_of_lineBreak (h : t.kind = .lineBreak) :
    split before (t :: ts) = ofTokens before.reverse t :: split [] ts := by
  rw [split, if_pos h]

theorem split_of_endOfText (h : t.kind = .endOfText) :
    split before (t :: ts) = if before.isEmpty then [] else [ofTokens before.reverse t] := by
  rw [split, if_neg (by rw [h]; decide), if_pos h]

theorem split_of_inner (brk : t.kind ≠ .lineBreak) (atEnd : t.kind ≠ .endOfText) :
    split before (t :: ts) = split (t :: before) ts := by
  rw [split, if_neg brk, if_neg atEnd]

/-- Up to the first break, the tokens of the two texts are cut into the same line. -/
theorem head?_split_unify (s : Scanner) (before : List Token)
    (inner : s.token.unify = s.token) :
    (split before (s.unify.run.map (·.token))).head?
      = (split before (s.run.map (·.token))).head?.map unify := by
  induction s using Scanner.run.induct generalizing before with
  | case1 s atEnd =>
    have own : s.run = [s.scan] := by rw [Scanner.run, if_pos atEnd]
    have other : s.unify.run = [s.scan.unify] := by
      rw [Scanner.run, Scanner.scan_unify inner, if_pos (by exact atEnd)]
    rw [own, other, List.map_singleton, List.map_singleton, split_of_endOfText atEnd,
      split_of_endOfText (t := s.scan.unify.token) atEnd]
    split
    · rfl
    · exact congrArg some (unify_ofTokens _ _).symm
  | case2 s more ih =>
    have own : s.run = s.scan :: s.scan.run := by rw [Scanner.run, if_neg more]
    have other : s.unify.run = s.scan.unify :: s.scan.unify.run := by
      rw [Scanner.run, Scanner.scan_unify inner, if_neg (by exact more)]
    rw [own, other, List.map_cons, List.map_cons]
    by_cases brk : s.scan.token.kind = .lineBreak
    · rw [split_of_lineBreak brk, split_of_lineBreak (t := s.scan.unify.token) brk]
      exact congrArg some (unify_ofTokens _ _).symm
    · have same : s.scan.token.unify = s.scan.token :=
        Token.unify_unbroken (Scanner.unbroken_scan brk)
      rw [split_of_inner brk more, split_of_inner (t := s.scan.unify.token) brk more, ← ih _ same]
      show (split (s.scan.token.unify :: before) _).head? = _
      rw [same]

end TokenLine

/-- A text of one line, with a line feed for its break. -/
theorem unify_of_single {line : List Char} {l l' : TokenLine} (h : TokenLine.ofText line = [l])
    (h' : TokenLine.ofText (unifyBreaks line) = [l']) : l' = l.unify := by
  have first := TokenLine.head?_split_unify (Scanner.start line) [] rfl
  have own : TokenLine.split [] ((Scanner.start line).run.map (·.token)) = [l] := h
  have other : TokenLine.split [] ((Scanner.start line).unify.run.map (·.token)) = [l'] := h'
  rw [own, other] at first
  exact Option.some.inj first

/-- Two lines with the same number that are one and the same line by themselves, but for the
characters of its break. -/
def TokenLine.Twins (l l' : TokenLine) : Prop :=
  ∃ (own : TokenLine) (base base' : Location), base.line = base'.line
    ∧ l = own.shift base ∧ l' = own.unify.shift base'
    ∧ ∃ p e : Scanner, p.ReadsLine own e

/-- The lines of a text, and those of the text with line feeds for its breaks. -/
theorem twins_unifyBreaks (text : List Char) :
    List.Forall₂ TokenLine.Twins (TokenLine.ofText text) (TokenLine.ofText (unifyBreaks text)) := by
  have sources : ∀ text, physicalLines text = (TokenLine.ofText text).map TokenLine.source := by
    intro text
    obtain ⟨f, reads, -⟩ := Scanner.reads_ofText text
    exact reads.physicalLines
  have lines := physicalLines_unifyBreaks text
  rw [sources, sources text, List.map_map] at lines
  rw [List.forall₂_iff_get]
  refine ⟨by simpa using (congrArg List.length lines).symm, fun k hk hk' => ?_⟩
  have at_k := List.getElem?_eq_getElem hk
  have at_k' := List.getElem?_eq_getElem hk'
  obtain ⟨q, e, there, stop⟩ := exists_readsLine at_k
  obtain ⟨q', e', there', stop'⟩ := exists_readsLine at_k'
  obtain ⟨own, single, same⟩ := there.ofText_source
  obtain ⟨own', single', same'⟩ := there'.ofText_source
  have source : (TokenLine.ofText (unifyBreaks text))[k].source
      = unifyBreaks (TokenLine.ofText text)[k].source := by
    have := congrArg (·[k]?) lines
    simpa [at_k, at_k'] using this
  rw [source] at single'
  rw [unify_of_single single single'] at same'
  refine ⟨own, q.token.stop, q'.token.stop, ?_, same, same', ?_⟩
  · rw [stop, stop']
    rfl
  · obtain ⟨f, reads, -⟩ := Scanner.reads_ofText (TokenLine.ofText text)[k].source
    rw [single] at reads
    cases reads with
    | line first => exact ⟨_, _, first⟩

end OffsideMarkup
