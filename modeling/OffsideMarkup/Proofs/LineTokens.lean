/-
OffsideMarkup.Proofs.LineTokens — which tokens a line has, by its characters alone.

What the lexer makes of a character depends on the token before, on the column, on the character
after, and on two scans that may be taken back. A line can be described without any of these. It has
its indentation, if it starts with space. Then, if no sigil comes first, all the rest of it is a
comment; if one does, the rest is words with space between them: sigils, pairs of braces, and
fragments of text. In the end stands its break, or the end of the text.

* `IsWord` — a word, with what stands behind it on its line. A fragment is as long as a fragment can
  be there, so the words of a line are determined by its characters.
* `Lexed` — the tokens of a line.
* `Scanner.Reads.lexed` — the tokens up to the end of the text are those of the lines to come.

The last line is one like the others, though it ends with the text, and may have no characters; then
it has no comment either, as other blank lines have.
-/
import OffsideMarkup.Proofs.EndedLine
import OffsideMarkup.Proofs.LexerLocality
import OffsideMarkup.Proofs.LookAhead

namespace OffsideMarkup

/-! ## 1. Words -/

/-- These characters can be a fragment of text, where the others stand behind them on the line. -/
structure IsFragment (cs behind : List Char) : Prop where
  /-- It starts with something to be seen that is no sigil. -/
  first : ∃ c ∈ cs.head?, isInlineSpace c = false ∧ isLineBreak c = false ∧ sigilKind? c = none
  /-- A brace that it starts with is single. -/
  lone : ¬['{', '{'] <+: cs ++ behind ∧ ¬['}', '}'] <+: cs ++ behind
  /-- Sigils, braces and breaks come later than the fragment. -/
  later : ∀ c ∈ cs.tail, startsToken c = false
  /-- Space at the end of it is at the end of the text. -/
  last : (∃ c ∈ cs.getLast?, isInlineSpace c = true) → behind = []

/-- A word of a line, by its kind and its characters, with what stands behind it on the line. -/
inductive IsWord : Kind → List Char → List Char → Prop
  | sigil {c : Char} {k : Kind} (behind : List Char) (h : sigilKind? c = some k) :
      IsWord k [c] behind
  | mustacheOpen (behind : List Char) : IsWord .mustacheOpen ['{', '{'] behind
  | mustacheClose (behind : List Char) : IsWord .mustacheClose ['}', '}'] behind
  | textFragment {cs behind : List Char} (h : IsFragment cs behind)
      (maximal : ∀ more rest, more ≠ [] → behind = more ++ rest → ¬IsFragment (cs ++ more) rest) :
      IsWord .textFragment cs behind

/-- Words one after the other, each with the space in front of it, and what comes behind them. -/
inductive Words : List Char → List Token → List Char → Prop
  | nil (rest : List Char) : Words rest [] rest
  | cons {t : Token} {ts : List Token} {behind rest : List Char}
      (space : ∀ c ∈ t.trivia, isInlineSpace c = true) (word : IsWord t.kind t.lexeme behind)
      (later : Words behind ts rest) : Words (t.source ++ behind) (t :: ts) rest

/-- Neither comments nor indentations are words. -/
theorem IsWord.kind_ne {k : Kind} {cs behind : List Char} (h : IsWord k cs behind) :
    k ≠ .comment ∧ k ≠ .indentation := by
  cases h with
  | sigil _ sig => exact ⟨(sigil_is_content sig).2.2.2.2.2.1, (sigil_is_content sig).2.2.2.2.1⟩
  | _ => exact ⟨by decide, by decide⟩

theorem Words.kind_ne {cs rest : List Char} {ts : List Token} (h : Words cs ts rest) :
    ∀ t ∈ ts, t.kind ≠ .comment ∧ t.kind ≠ .indentation := by
  induction h with
  | nil => simp
  | cons _ word _ ih => exact List.forall_mem_cons.mpr ⟨word.kind_ne, ih⟩

/-! ## 2. What the lexer takes for a word -/

theorem isInlineSpace_of_startsToken {c : Char} (h : startsToken c = true) :
    isInlineSpace c = false := by
  simp only [startsToken, Bool.or_eq_true, beq_iff_eq] at h
  rcases h with ((sigil | rfl) | rfl) | brk
  · obtain ⟨k, sigil⟩ := Option.isSome_iff_exists.mp sigil
    exact (sigil_is_content sigil).2.1
  · rfl
  · rfl
  · exact isInlineSpace_eq_false_of_isLineBreak brk

theorem startsToken_fragmentTail (cs : List Char) :
    ∀ c ∈ (fragmentTail cs).1, startsToken c = false := by
  induction cs with
  | nil => simp [fragmentTail]
  | cons c cs ih =>
    unfold fragmentTail
    split
    · simp
    · next inner =>
      split
      · simp
      · exact List.forall_mem_cons.mpr ⟨by simpa using inner, ih⟩

/-- A fragment is left where a token starts, or where space leads to one. -/
theorem fragmentTail_stop (cs : List Char) :
    (fragmentTail cs).2 = [] ∨ ∃ space d more, (fragmentTail cs).2 = space ++ d :: more
      ∧ (∀ c ∈ space, isInlineSpace c = true) ∧ startsToken d = true := by
  induction cs with
  | nil => exact .inl rfl
  | cons c cs ih =>
    unfold fragmentTail
    split
    · next starts => exact .inr ⟨[], c, cs, rfl, by simp, starts⟩
    · split
      · next turns =>
        rw [Bool.and_eq_true] at turns
        obtain ⟨space, starts⟩ := turns
        cases behind : cs.dropWhile isInlineSpace with
        | nil => rw [behind] at starts; exact absurd starts (by simp)
        | cons d more =>
          rw [behind] at starts
          refine .inr ⟨c :: cs.takeWhile isInlineSpace, d, more, ?_, ?_, by simpa using starts⟩
          · rw [List.cons_append, ← behind, List.takeWhile_append_dropWhile]
          · exact List.forall_mem_cons.mpr ⟨space, inlineSpace_takeWhile cs⟩
      · exact ih

/-- Space is kept at the end of a fragment only if nothing comes behind it. -/
theorem fragmentTail_last (cs : List Char) :
    ∀ c ∈ (fragmentTail cs).1.getLast?, isInlineSpace c = true → (fragmentTail cs).2 = [] := by
  induction cs with
  | nil => exact fun _ _ _ => rfl
  | cons c cs ih =>
    unfold fragmentTail
    split
    · simp
    · split
      · simp
      · next goes =>
        intro d last space
        dsimp only at last ⊢
        cases tail : (fragmentTail cs).1 with
        | cons e es =>
          rw [tail, List.getLast?_cons_cons] at last
          exact ih d (tail ▸ last) space
        | nil =>
          rw [tail] at last
          obtain rfl : c = d := by simpa using last
          -- Nothing is taken behind this character, so a token starts there or behind more space.
          rcases fragmentTail_stop cs with nothing | ⟨run, e, more, rest, inline, starts⟩
          · exact nothing
          · have whole := fragmentTail_append cs
            rw [tail, rest, List.nil_append] at whole
            have solid : isInlineSpace e = false := isInlineSpace_of_startsToken starts
            refine absurd ?_ goes
            rw [space, ← whole, List.dropWhile_append_of_pos inline,
              List.dropWhile_cons_of_neg (by simp [solid])]
            simpa using starts

/-- What is left in front of the next token, space in front of it included, cannot go with a
fragment. -/
theorem not_isFragment_append {cs more rest space further : List Char} {d : Char}
    (some_text : cs ≠ []) (some_more : more ≠ []) (split : more ++ rest = space ++ d :: further)
    (inline : ∀ c ∈ space, isInlineSpace c = true) (starts : startsToken d = true) :
    ¬IsFragment (cs ++ more) rest := by
  intro fragment
  -- Space alone would be its end, and the token stands behind that.
  have further_on : ∀ tail, space = more ++ tail → rest = tail ++ d :: further → False := by
    rintro tail rfl behind
    obtain ⟨last, at_last⟩ := Option.isSome_iff_exists.mp (List.getLast?_isSome.mpr some_more)
    have ends := fragment.last ⟨last, by simp [at_last],
      inline last (List.mem_append_left _ (List.mem_of_getLast? at_last))⟩
    rw [ends] at behind
    exact absurd behind (by simp)
  rcases List.append_eq_append_iff.mp split with ⟨tail, run, behind⟩ | ⟨front, run, behind⟩
  · exact further_on tail run behind
  · cases front with
    | nil => exact further_on [] (by simpa using run.symm) (by simpa using behind.symm)
    | cons e es =>
      obtain ⟨rfl, -⟩ := List.cons.inj behind
      have inner : d ∈ (cs ++ more).tail := by
        rw [List.tail_append_of_ne_nil some_text, run]
        simp
      rw [fragment.later d inner] at starts
      exact absurd starts (by decide)

theorem isFragment_fragmentTail {c : Char} {cs : List Char} (solid : isInlineSpace c = false)
    (inner : isLineBreak c = false) (plain : sigilKind? c = none)
    (lone : ∀ brace ∈ ['{', '}'], ¬(c = brace ∧ cs.head? = some brace)) :
    IsFragment (c :: (fragmentTail cs).1) (fragmentTail cs).2 := by
  have single : ∀ brace ∈ ['{', '}'],
      ¬[brace, brace] <+: c :: (fragmentTail cs).1 ++ (fragmentTail cs).2 := by
    intro brace mem
    rw [List.cons_append, fragmentTail_append, List.cons_prefix_cons]
    rintro ⟨rfl, more, rfl⟩
    exact lone brace mem ⟨rfl, rfl⟩
  refine ⟨⟨c, rfl, solid, inner, plain⟩, ⟨single '{' (by simp), single '}' (by simp)⟩,
    startsToken_fragmentTail cs, ?_⟩
  rintro ⟨d, last, space⟩
  cases tail : (fragmentTail cs).1 with
  | nil =>
    rw [tail] at last
    obtain rfl : c = d := by simpa using last
    rw [solid] at space
    exact absurd space (by decide)
  | cons e es =>
    rw [tail, List.getLast?_cons_cons] at last
    exact fragmentTail_last cs d (tail ▸ last) space

/-- In the middle of a line, what starts neither with space nor with a break is a word. -/
theorem isWord_lexeme {c : Char} {cs : List Char} (solid : isInlineSpace c = false)
    (inner : isLineBreak c = false) :
    IsWord (lexeme false (c :: cs)).1 (lexeme false (c :: cs)).2.1
      (lexeme false (c :: cs)).2.2 := by
  simp only [lexeme]
  split
  · next k sigil => exact .sigil cs sigil
  · next plain =>
    split
    · next opening => exact absurd opening (by decide)
    · split
      · exact .mustacheOpen _
      · next unpaired =>
        split
        · exact .mustacheClose _
        · next unpaired' =>
          rw [if_neg (by simp [inner])]
          have lone : ∀ brace ∈ ['{', '}'], ¬(c = brace ∧ cs.head? = some brace) := by
            simpa using And.intro unpaired unpaired'
          refine .textFragment (isFragment_fragmentTail solid inner plain lone) ?_
          intro more rest some_more split
          rcases fragmentTail_stop cs with nothing | ⟨space, d, further, stop, inline, starts⟩
          · rw [nothing] at split
            exact absurd (List.append_eq_nil_iff.mp split.symm).1 some_more
          · exact not_isFragment_append (by simp) some_more (split.symm.trans stop) inline starts

namespace Scanner

variable {s p e f : Scanner} {l : TokenLine} {ls : List TokenLine}

/-- A step inside a line, seen on what is left of the line: a word, with space in front. -/
theorem isWord_scan {cs after : List Char} (kind : s.token.kind.opensLine = false)
    (column : 0 < s.token.stop.column) (rest : RestOfLine after cs) (text : s.rest = cs ++ after)
    (inner : s.scan.token.kind.endsLine = false) :
    ∃ behind, cs = s.scan.token.source ++ behind
      ∧ IsWord s.scan.token.kind s.scan.token.lexeme behind
      ∧ s.scan.token.lexeme ≠ [] ∧ s.scan.token.kind.opensLine = false := by
  have solid := fun c => isInlineSpace_eq_false_of_isLineBreak (c := c)
  have step : s.scan = ⟨⟨(lexeme false (cs.dropWhile isInlineSpace)).1, s.token.stop,
      cs.takeWhile isInlineSpace, (lexeme false (cs.dropWhile isInlineSpace)).2.1⟩,
      (lexeme false (cs.dropWhile isInlineSpace)).2.2 ++ after⟩ := by
    rw [scan, cut_of_content (by omega), kind, text, rest.takeWhile_append solid,
      rest.dropWhile_append solid, (rest.dropWhile solid).lexeme_append]
  rw [step] at inner ⊢
  dsimp only at inner ⊢
  have split : cs.takeWhile isInlineSpace ++ cs.dropWhile isInlineSpace = cs :=
    List.takeWhile_append_dropWhile
  have first := solid_dropWhile cs
  have taken := OffsideMarkup.lexeme_append false (cs.dropWhile isInlineSpace)
  have lexes := lexes false (cs.dropWhile isInlineSpace)
  generalize cs.dropWhile isInlineSpace = ds at *
  refine ⟨(lexeme false ds).2.2, ?_, ?_, ?_⟩
  · rw [Token.source, List.append_assoc, taken, split]
  · cases ds with
    | nil => exact absurd inner (by decide)
    | cons c ds =>
      refine isWord_lexeme (first c rfl) ?_
      by_contra brk
      rw [lexes.of_isLineBreak (by simpa using brk)] at inner
      exact absurd inner (by decide)
  · obtain ⟨brk, atEnd⟩ := Kind.ne_of_endsLine_eq_false inner
    obtain ⟨some_text, later⟩ := lexes.inside atEnd
    exact ⟨some_text, later brk⟩

/-- Behind the first token of its content, a line is words up to its end. -/
theorem Passes.words {ts : List Token} (h : s.scan.Passes ts e)
    (inner : ∀ t ∈ ts, t.kind.endsLine = false) (kind : s.token.kind.opensLine = false)
    (column : 0 < s.token.stop.column)
    (rest : RestOfLine e.rest (ts.flatMap Token.source ++ e.token.source)) :
    Words (ts.flatMap Token.source ++ e.token.source) ts e.token.source := by
  induction ts generalizing s with
  | nil => exact .nil _
  | cons t ts ih =>
    have whole := h.source
    obtain ⟨rfl, h⟩ := h
    have inside := inner s.scan.token List.mem_cons_self
    have brk := (Kind.ne_of_endsLine_eq_false inside).1
    rw [List.flatMap_cons, List.append_assoc] at rest whole ⊢
    rw [← List.append_assoc (ts.flatMap Token.source), ← List.append_assoc] at whole
    obtain ⟨behind, split, word, some_text, opens⟩ :=
      isWord_scan kind column rest whole.symm inside
    obtain rfl := List.append_cancel_left split
    refine .cons s.inlineSpace_trivia word (ih h ?_ opens ?_ ?_)
    · exact fun u hu => inner u (List.mem_cons_of_mem _ hu)
    · exact column_stop_pos brk (by simp [Token.source, some_text])
    · exact rest.of_append (unbroken_scan brk)

end Scanner

/-! ## 3. The tokens of a line -/

/-- The tokens of a line behind its indentation, up to the one that ends it. -/
inductive LexedBody (l : EndedLine) (stop : Token) : List Token → Prop
  /-- On a last line without content there are none. -/
  | nothing (body : l.body = []) (ending : l.ending = []) (space : stop.trivia = []) :
      LexedBody l stop []
  /-- Where no sigil comes first, all up to the break is a comment, and maybe nothing. -/
  | comment {t : Token} (some_text : l.body ++ l.ending ≠ [])
      (plain : ∀ c ∈ l.body.head?, sigilKind? c = none) (kind : t.kind = .comment)
      (trivia : t.trivia = []) (lexeme : t.lexeme = l.body) (space : stop.trivia = []) :
      LexedBody l stop [t]
  /-- Behind a sigil there are words, that one included. -/
  | words {ts : List Token} (sigil : ∃ c ∈ l.body.head?, (sigilKind? c).isSome = true)
      (words : Words (l.body ++ l.ending) ts (stop.trivia ++ l.ending))
      (inner : ∀ t ∈ ts, t.kind ≠ .comment ∧ t.kind ≠ .indentation) : LexedBody l stop ts

/-- The tokens of a line. -/
structure Lexed (l : EndedLine) (t : TokenLine) : Prop where
  /-- Space that it starts with is one token, all of it. -/
  indent : t.indent.map (fun i => (i.kind, i.trivia, i.lexeme))
    = if l.space = [] then none else some (.indentation, [], l.space)
  body : LexedBody l t.stop t.body
  /-- In front of what ends it is space at most. -/
  space : ∀ c ∈ t.stop.trivia, isInlineSpace c = true
  /-- It ends with its break, or with the text. -/
  stop : t.stop.kind = if l.ending = [] then .endOfText else .lineBreak
  /-- A break is one token, all of it. -/
  ending : t.stop.lexeme = l.ending

/-- The line that a token line is made from. -/
def TokenLine.ended (l : TokenLine) : EndedLine :=
  ⟨l.front.flatMap Token.source ++ l.stop.trivia, l.stop.lexeme⟩

theorem TokenLine.source_ended (l : TokenLine) : l.ended.source = l.source :=
  List.append_assoc ..

/-- What a search takes of a text in front of what stops it does not depend on what comes behind. -/
theorem takeWhile_append_of_head? {p : Char → Bool} {ys : List Char}
    (stops : ∀ y ∈ ys.head?, p y = false) (xs : List Char) :
    (xs ++ ys).takeWhile p = xs.takeWhile p ∧ (xs ++ ys).dropWhile p = xs.dropWhile p ++ ys := by
  induction xs with
  | nil =>
    cases ys with
    | nil => exact ⟨rfl, rfl⟩
    | cons y ys => simp [stops y rfl]
  | cons x xs ih =>
    rw [List.cons_append, List.takeWhile_cons, List.takeWhile_cons, List.dropWhile_cons,
      List.dropWhile_cons, ih.1, ih.2]
    split <;> exact ⟨rfl, rfl⟩

namespace Scanner.ReadsLine

variable {p e : Scanner} {l : TokenLine}

/-- Behind the content of a line is a break, or nothing. -/
theorem isLineBreak_ending (h : p.ReadsLine l e) :
    ∀ c ∈ (l.stop.lexeme ++ e.rest).head?, isLineBreak c = true := by
  obtain ⟨-, ⟨-, brk⟩ | ⟨-, nothing, rest⟩⟩ := h.stop_cases
  · obtain ⟨c, cs, text, first⟩ := brk.exists_cons
    rw [text]
    intro d hd
    obtain rfl : c = d := by simpa using hd
    exact first
  · rw [nothing, rest]
    simp

theorem rest_of_ending_nil (h : p.ReadsLine l e) (nothing : l.ended.ending = []) : e.rest = [] := by
  have nothing : l.stop.lexeme = [] := nothing
  obtain ⟨-, ⟨-, brk⟩ | ⟨-, -, rest⟩⟩ := h.stop_cases
  · rw [nothing] at brk
    cases brk
  · exact rest

theorem unbroken_ended (h : p.ReadsLine l e) : Unbroken l.ended.content :=
  unbroken_append.mpr ⟨h.passes.unbroken h.inLine.inner, unbroken_of_inlineSpace h.stop_cases.1⟩

theorem rest_ended (h : p.ReadsLine l e) :
    l.ended.content ++ (l.ended.ending ++ e.rest) = p.rest := by
  rw [← h.rest, TokenLine.source, Token.source, TokenLine.ended]
  simp only [List.append_assoc]

/-- The line is the first one in front of the scanner. -/
theorem endedLines_rest (h : p.ReadsLine l e) :
    endedLines p.rest =
      l.ended :: if l.stop.kind = .lineBreak then endedLines e.rest else [] := by
  rw [← h.rest_ended]
  obtain ⟨-, ⟨kind, brk⟩ | ⟨kind, nothing, rest⟩⟩ := h.stop_cases
  · rw [if_pos kind]
    exact endedLines_line h.unbroken_ended brk
  · have ending : l.ended.ending = [] := nothing
    rw [kind, if_neg (by decide), rest, ending, List.append_nil, List.append_nil,
      endedLines_last h.unbroken_ended, ← ending]

theorem split_ended (h : p.ReadsLine l e) :
    p.rest.takeWhile isInlineSpace = l.ended.space
      ∧ p.rest.dropWhile isInlineSpace = l.ended.body ++ (l.ended.ending ++ e.rest) := by
  rw [← h.rest_ended]
  exact takeWhile_append_of_head?
    (fun c hc => isInlineSpace_eq_false_of_isLineBreak (h.isLineBreak_ending c hc)) _

/-- Behind its space a line has the characters of its tokens. -/
theorem body_ended (h : p.ReadsLine l e) :
    l.ended.body = l.body.flatMap Token.source ++ l.stop.trivia := by
  have content : l.ended.content
      = l.ended.space ++ (l.body.flatMap Token.source ++ l.stop.trivia) := by
    rw [← h.split_ended.1, ← h.source_indent, TokenLine.ended, TokenLine.front,
      List.flatMap_append, List.append_assoc]
  have split : l.ended.space ++ l.ended.body = l.ended.content :=
    List.takeWhile_append_dropWhile
  exact List.append_cancel_left (split.trans content)

/-- Space is not part of the first token of the content. -/
theorem trivia_head (h : p.ReadsLine l e) : (l.body.headD l.stop).trivia = [] := by
  have source := h.opens.source_pastIndent
  rw [h.token_pastIndent, Token.source] at source
  simpa using source

/-- What opens with a sigil is words. -/
theorem words_body (h : p.ReadsLine l e) {t : Token} {ts : List Token} (given : l.body = t :: ts)
    {c : Char} (sigil : sigilKind? c = some t.kind) (source : t.source = [c]) :
    Words (l.ended.body ++ l.ended.ending) (t :: ts) l.stop.source := by
  have whole : l.ended.body ++ l.ended.ending
      = t.source ++ (ts.flatMap Token.source ++ l.stop.source) := by
    rw [h.body_ended, given, List.flatMap_cons, List.append_assoc, List.append_assoc]
    rfl
  have passes := h.body
  rw [given] at passes
  obtain ⟨here, passes⟩ := passes
  have trivia := h.trivia_head
  rw [given, List.headD_cons] at trivia
  have lexeme : t.lexeme = [c] := by rwa [Token.source, trivia] at source
  have brk := (sigil_is_content sigil).2.2.2.1
  have inner : ∀ u ∈ ts, u.kind.endsLine = false := fun u hu =>
    h.inner u (by rw [given]; exact List.mem_cons_of_mem _ hu)
  have rest : RestOfLine e.rest (ts.flatMap Token.source ++ e.token.source) := by
    have front := h.passes.unbroken h.inLine.inner
    have line := h.restOfLine
    rw [TokenLine.source, TokenLine.front, given, List.flatMap_append, List.flatMap_cons] at line
    rw [TokenLine.front, given, List.flatMap_append, List.flatMap_cons, unbroken_append,
      unbroken_append] at front
    rw [h.stop]
    refine RestOfLine.of_append ?_ (unbroken_append.mpr ⟨front.1, front.2.1⟩)
    simpa only [List.append_assoc] using line
  rw [whole, ← h.stop]
  refine .cons (by simp [trivia]) (by rw [lexeme]; exact .sigil _ sigil) ?_
  exact passes.words inner (here ▸ opensLine_of_sigil sigil)
    (here ▸ column_stop_pos brk (by simp [source])) rest

theorem lexedBody (h : p.ReadsLine l e) : LexedBody l.ended l.stop l.body := by
  have opens := h.opensBody
  rw [h.split_ended.2] at opens
  have body := h.body_ended
  have trivia := h.trivia_head
  have words := @h.words_body
  generalize given : l.body = ts at opens body trivia words
  generalize whole : l.ended.body ++ (l.ended.ending ++ e.rest) = cs at opens
  cases opens with
  | nothing =>
    obtain ⟨nothing, rest⟩ := List.append_eq_nil_iff.mp whole
    exact .nothing nothing (List.append_eq_nil_iff.mp rest).1 trivia
  | @comment c cs t kind plain source =>
    have unbroken : ∀ d ∈ l.ended.body, (!isLineBreak d) = true := fun d hd => by
      rw [h.unbroken_ended d ((List.dropWhile_sublist _).mem hd)]
      rfl
    have stops : ∀ d ∈ (l.ended.ending ++ e.rest).head?, (!isLineBreak d) = false := fun d hd => by
      rw [h.isLineBreak_ending d hd]
      rfl
    have all : t.source = l.ended.body := by
      rw [source, ← whole, (takeWhile_append_of_head? stops _).1,
        List.takeWhile_eq_self_iff.mpr unbroken]
    have trivia : t.trivia = [] := trivia
    have space : l.stop.trivia = [] := by
      rw [← all, List.flatMap_singleton] at body
      simpa using body
    refine .comment ?_ ?_ kind trivia ?_ space
    · intro nothing
      rw [← List.append_assoc, nothing, List.nil_append,
        h.rest_of_ending_nil (List.append_eq_nil_iff.mp nothing).2] at whole
      exact absurd whole (by simp)
    · intro d hd
      have head := congrArg List.head? whole
      rw [List.head?_append, hd] at head
      obtain rfl : d = c := by simpa using head
      exact plain
    · rw [← all, Token.source, trivia]
      rfl
  | @sigil c cs t ts sigil source =>
    refine .words ?_ (words rfl sigil source) ?_
    · cases text : l.ended.body with
      | nil =>
        rw [text, List.nil_append] at whole
        have first : c ∈ (l.ended.ending ++ e.rest).head? := by rw [whole]; rfl
        have brk := h.isLineBreak_ending c first
        rw [(sigil_is_content sigil).1] at brk
        exact absurd brk (by decide)
      | cons d ds =>
        rw [text] at whole
        obtain ⟨rfl, -⟩ := List.cons.inj whole
        exact ⟨d, rfl, by rw [sigil]; rfl⟩
    · exact (words rfl sigil source).kind_ne

/-- The tokens that are read of a line are those that it has by its characters. -/
theorem lexed (h : p.ReadsLine l e) : Lexed l.ended l where
  indent := by
    rw [h.indent, h.opens.indent?_scan, h.split_ended.1]
    split <;> rfl
  body := h.lexedBody
  space := h.stop_cases.1
  stop := by
    obtain ⟨-, ⟨kind, brk⟩ | ⟨kind, nothing, -⟩⟩ := h.stop_cases
    · have ending : l.ended.ending ≠ [] := by
        show l.stop.lexeme ≠ []
        obtain ⟨c, cs, text, -⟩ := brk.exists_cons
        rw [text]
        exact List.cons_ne_nil c cs
      rw [kind, if_neg ending]
    · have ending : l.ended.ending = [] := nothing
      rw [kind, if_pos ending]
  ending := rfl

end Scanner.ReadsLine

/-! ## 4. The tokens of a text -/

/-- The tokens of a line in the order in which they stand. -/
def TokenLine.tokens (l : TokenLine) : List Token := l.front ++ [l.stop]

namespace Scanner

variable {p e f : Scanner} {ls : List TokenLine}

/-- Up to a token that it comes to, the run gives the tokens in front of that one. -/
theorem run_of_passes {ts : List Token} (h : p.scan.Passes ts e)
    (inner : ∀ t ∈ ts, t.kind.endsLine = false) :
    p.run.map (·.token) = ts ++ e.token ::
      if e.token.kind = .endOfText then [] else e.run.map (·.token) := by
  induction ts generalizing p with
  | nil =>
    rw [Passes] at h
    rw [run, h]
    split <;> rfl
  | cons t ts ih =>
    obtain ⟨rfl, h⟩ := h
    have more := (Kind.ne_of_endsLine_eq_false (inner p.scan.token List.mem_cons_self)).2
    rw [run, if_neg more, List.map_cons, ih h fun u hu => inner u (List.mem_cons_of_mem _ hu)]
    rfl

/-- Up to the end of the text there are the tokens of the lines in front of the scanner, one line
after the other. -/
theorem Reads.lexed (h : p.Reads ls f) :
    ∃ lines : List TokenLine, p.run.map (·.token) = lines.flatMap TokenLine.tokens
      ∧ List.Forall₂ Lexed (endedLines p.rest) lines := by
  induction h with
  | @done p atEnd empty =>
    obtain ⟨trivia, lexeme⟩ := List.append_eq_nil_iff.mp empty
    refine ⟨[⟨none, [], p.scan.token⟩], by rw [run, if_pos atEnd]; rfl, ?_⟩
    rw [rest_of_endOfText atEnd empty]
    exact .cons ⟨rfl, .nothing rfl rfl trivia, by simp [trivia], atEnd, lexeme⟩ .nil
  | @line p e f l ls first later ih =>
    have tokens := run_of_passes first.passes first.inLine.inner
    rw [first.stop] at tokens
    rw [tokens, first.endedLines_rest]
    obtain ⟨-, ⟨kind, -⟩ | ⟨kind, -⟩⟩ := first.stop_cases
    · obtain ⟨lines, run, lexed⟩ := ih
      refine ⟨l :: lines, ?_, ?_⟩
      · rw [kind, if_neg (by decide), run, List.flatMap_cons, TokenLine.tokens, List.append_assoc]
        rfl
      · rw [if_pos kind]
        exact .cons first.lexed lexed
    · refine ⟨[l], ?_, ?_⟩
      · rw [kind, if_pos rfl, List.flatMap_singleton]
        rfl
      · rw [if_neg (by simp [kind])]
        exact .cons first.lexed .nil

end Scanner

/-- The tokens of a text are those of its lines, one line after the other, and each line has the
tokens that `Lexed` says. -/
theorem line_tokens (text : List Char) :
    ∃ lines : List TokenLine, tokens text = lines.flatMap TokenLine.tokens
      ∧ List.Forall₂ Lexed (endedLines text) lines := by
  obtain ⟨f, reads, -⟩ := Scanner.reads_ofText text
  exact reads.lexed

/-- Of three braces two are a pair, and the one left over is text. -/
example : (List.range 5).map (fun n =>
    (Scanner.scanTimes (n + 1) (.start ['#', '{', '{', '{', '\n'])).token.kind)
      = [.hashSign, .mustacheOpen, .textFragment, .lineBreak, .endOfText] := by decide

end OffsideMarkup
