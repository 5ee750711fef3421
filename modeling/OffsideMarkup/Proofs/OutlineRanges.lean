/-
OffsideMarkup.Proofs.OutlineRanges — where a symbol ends, and what its name covers.

The region of a symbol ends where the token starts that ends its last line. Space in front of a line
break is part of that token, so there the region ends behind the last character that can be seen. It
is not so everywhere: a comment goes on up to the break, and a fragment that the text ends with keeps
the space behind it. On such a line (`keepsSpace`) the region goes on to the end of the space, and so
does the selection of a name that nothing but the space stands behind, though the space is no part of
the name that is shown.

* `IsWord.space_last`, `IsWord.space_behind` — space at the end of a word, and behind a fragment.
* `Scanner.ReadsLine.front_eq` — how far the tokens of a line go that do not end it.
* `Symbol.Spans` — region and selection in the characters of the lines, for any account of which lines
  keep their space.
-/
import Mathlib.Data.List.DropRight
import OffsideMarkup.Proofs.FoldRuns
import OffsideMarkup.Proofs.LineNodes
import OffsideMarkup.Proofs.OutlineNesting

namespace OffsideMarkup

/-! ## 1. Space behind words -/

theorem Words.source_eq {cs rest : List Char} {ts : List Token} (h : Words cs ts rest) :
    cs = ts.flatMap Token.source ++ rest := by
  induction h with
  | nil => simp
  | cons _ _ _ ih => simp [ih]

/-- A token among others is a word in front of the rest of the line. -/
theorem Words.word {cs rest : List Char} {ts us : List Token} {t : Token}
    (h : Words cs (ts ++ t :: us) rest) :
    IsWord t.kind t.lexeme (us.flatMap Token.source ++ rest) := by
  induction ts generalizing cs with
  | nil =>
    cases h with
    | cons _ word later => exact later.source_eq ▸ word
  | cons u ts ih =>
    cases h with
    | cons _ _ later => exact ih later

theorem IsWord.ne_nil {k : Kind} {cs behind : List Char} (h : IsWord k cs behind) : cs ≠ [] := by
  obtain ⟨c, first, -⟩ := h.solid
  exact List.ne_nil_of_mem (List.mem_of_mem_head? first)

/-- Tokens end as the last of them does. -/
theorem getLast?_flatMap_source {ts : List Token} {t : Token} (some_text : t.lexeme ≠ []) :
    ((ts ++ [t]).flatMap Token.source).getLast? = t.lexeme.getLast? := by
  rw [List.flatMap_append, List.flatMap_singleton, Token.source, ← List.append_assoc,
    List.getLast?_append_of_ne_nil _ some_text]

/-- Only a fragment ends in space, and only if nothing comes behind it. -/
theorem IsWord.space_last {k : Kind} {cs behind : List Char} (h : IsWord k cs behind)
    (space : ∃ c ∈ cs.getLast?, isInlineSpace c = true) : k = .textFragment ∧ behind = [] := by
  cases h with
  | textFragment fragment => exact ⟨rfl, fragment.last space⟩
  | sigil _ sig =>
    simp only [List.getLast?_singleton, Option.mem_def, Option.some.injEq, exists_eq_left'] at space
    rw [(sigil_is_content sig).2.1] at space
    exact absurd space (by decide)
  | mustacheOpen => simp [isInlineSpace] at space
  | mustacheClose => simp [isInlineSpace] at space

/-- A fragment takes the space behind it along if that is all there is. -/
theorem IsWord.space_behind {cs behind : List Char} (h : IsWord .textFragment cs behind)
    (space : ∀ c ∈ behind, isInlineSpace c = true) : behind = [] := by
  generalize kind : Kind.textFragment = k at h
  cases h with
  | sigil _ sig =>
    have all : ∀ s ∈ sigils, .textFragment ≠ s.2 := by decide
    exact absurd kind (all _ (mem_sigils sig))
  | mustacheOpen => exact absurd kind (by decide)
  | mustacheClose => exact absurd kind (by decide)
  | textFragment fragment maximal =>
    by_contra some_space
    obtain ⟨c, first, plain⟩ := fragment.first
    have some_text : cs ≠ [] := List.ne_nil_of_mem (List.mem_of_mem_head? first)
    refine maximal behind [] some_space (List.append_nil _).symm ⟨?_, ?_, ?_, fun _ => rfl⟩
    · exact ⟨c, by rwa [List.head?_append_of_ne_nil _ some_text], plain⟩
    · rw [List.append_nil]
      exact fragment.lone
    · rw [List.tail_append_of_ne_nil some_text, List.forall_mem_append]
      refine ⟨fragment.later, fun d hd => ?_⟩
      by_contra starts
      have solid := isInlineSpace_of_startsToken (by simpa using starts)
      rw [space d hd] at solid
      exact absurd solid (by decide)

/-- Space behind something else is taken off a text. -/
theorem rdropWhile_append_space {cs more : List Char}
    (solid : ∀ c ∈ cs.getLast?, isInlineSpace c = false)
    (space : ∀ c ∈ more, isInlineSpace c = true) :
    (cs ++ more).rdropWhile isInlineSpace = cs := by
  have front : cs.rdropWhile isInlineSpace = cs := by
    refine List.rdropWhile_eq_self_iff.mpr fun some_text => ?_
    simpa using solid _ (List.getLast_mem_getLast? some_text)
  rw [List.rdropWhile, List.reverse_append,
    List.dropWhile_append_of_pos fun c hc => space c (List.mem_reverse.mp hc)]
  exact front

/-! ## 2. The end of a line -/

/-- The space at the end of the line belongs to its last token: to a comment, or to a fragment that
the text ends with. -/
def TokenLine.keepsSpace (l : TokenLine) : Bool :=
  l.body.getLast?.all fun t =>
    t.kind == .comment || (t.kind == .textFragment && l.stop.kind == .endOfText)

/-- The line of a text with this number keeps the space at its end. -/
def keepsSpace (text : List Char) (k : Nat) : Bool :=
  (TokenLine.ofText text)[k]?.any TokenLine.keepsSpace

namespace Scanner.ReadsLine

variable {p e : Scanner} {tl : TokenLine} (line : p.ReadsLine tl e)

include line

/-- A line ends with the text if there is nothing where its break should be. -/
theorem stop_iff : tl.stop.kind = .endOfText ↔ tl.stop.lexeme = [] := by
  have stop := line.lexed.stop
  have ending : tl.ended.ending = tl.stop.lexeme := rfl
  rw [stop, ending]
  split
  · next nothing => exact iff_of_true rfl nothing
  · next some_break => exact iff_of_false (by decide) some_break

/-- Unless it is a comment, the last token of the content is a word in front of the end. -/
theorem word_last {t : Token} (last : tl.body.getLast? = some t) (other : t.kind ≠ .comment) :
    IsWord t.kind t.lexeme tl.stop.source := by
  have lexed := line.lexedBody
  obtain ⟨ts, body⟩ := List.getLast?_eq_some_iff.mp last
  generalize tl.body = given at lexed body
  cases lexed with
  | nothing => exact absurd body (by simp)
  | @comment u _ _ kind =>
    obtain rfl : u = t := by simpa using congrArg List.getLast? body
    exact absurd kind other
  | words _ words =>
    rw [body] at words
    exact words.word

/-- Unless that is a comment, the space is kept by a fragment that the text ends with. -/
theorem keepsSpace_iff {t : Token} (last : tl.body.getLast? = some t) (other : t.kind ≠ .comment) :
    tl.keepsSpace ↔ t.kind = .textFragment ∧ tl.stop.lexeme = [] := by
  rw [← line.stop_iff]
  simp [TokenLine.keepsSpace, last, other]

/-- A line without tokens, indentation aside, ends in front of its space. -/
theorem trivia_of_body_nil (none : tl.body = []) : tl.stop.trivia = [] := by
  have trivia := line.trivia_head
  rwa [none] at trivia

theorem trivia_of_keepsSpace (keeps : tl.keepsSpace) : tl.stop.trivia = [] := by
  cases last : tl.body.getLast? with
  | none => exact line.trivia_of_body_nil (List.getLast?_eq_none_iff.mp last)
  | some t =>
    by_cases comment : t.kind = .comment
    · have lexed := line.lexedBody
      obtain ⟨ts, body⟩ := List.getLast?_eq_some_iff.mp last
      generalize tl.body = given at lexed body
      cases lexed with
      | nothing _ _ space => exact space
      | comment _ _ _ _ _ space => exact space
      | words _ _ inner => exact absurd comment (inner t (by simp [body])).1
    · obtain ⟨fragment, atEnd⟩ := (line.keepsSpace_iff last comment).mp keeps
      have word := line.word_last last comment
      have nothing : tl.stop.source = tl.stop.trivia := by
        rw [Token.source, atEnd, List.append_nil]
      rw [fragment, nothing] at word
      exact word.space_behind line.lexed.space

/-- Where the space is not kept, the tokens in front of the end leave off with something to be
seen. -/
theorem solid_of_not_keepsSpace (loses : tl.keepsSpace = false) :
    ∀ c ∈ (tl.front.flatMap Token.source).getLast?, isInlineSpace c = false := by
  cases last : tl.body.getLast? with
  | none => exact absurd loses (by simp [TokenLine.keepsSpace, last])
  | some t =>
    have comment : t.kind ≠ .comment := fun comment => by
      simp [TokenLine.keepsSpace, last, comment] at loses
    have word := line.word_last last comment
    obtain ⟨ts, body⟩ := List.getLast?_eq_some_iff.mp last
    intro d hd
    rw [TokenLine.front, body, ← List.append_assoc, getLast?_flatMap_source word.ne_nil] at hd
    by_contra space
    obtain ⟨fragment, nothing⟩ := word.space_last ⟨d, hd, by simpa using space⟩
    have keeps := (line.keepsSpace_iff last comment).mpr
      ⟨fragment, (List.append_eq_nil_iff.mp nothing).2⟩
    rw [keeps] at loses
    exact absurd loses (by decide)

/-- The tokens of a line in front of its end go as far as its content, without the space at the end
unless that is kept. -/
theorem front_eq : tl.front.flatMap Token.source
    = if tl.keepsSpace then tl.ended.content
      else tl.ended.content.rdropWhile isInlineSpace := by
  rw [TokenLine.ended]
  split
  · next keeps => rw [line.trivia_of_keepsSpace keeps, List.append_nil]
  · next loses =>
    exact (rdropWhile_append_space (line.solid_of_not_keepsSpace (by simpa using loses))
      line.lexed.space).symm

end Scanner.ReadsLine

/-! ## 3. Names -/

/-- A text is the space in front, what is left of it without the space around it, and the space
behind. -/
theorem trimInline_split (cs : List Char) : cs = cs.takeWhile isInlineSpace ++ trimInline cs
    ++ (cs.dropWhile isInlineSpace).rtakeWhile isInlineSpace := by
  have trim : trimInline cs = (cs.dropWhile isInlineSpace).rdropWhile isInlineSpace := rfl
  rw [trim, List.append_assoc, List.rdropWhile_append_rtakeWhile, List.takeWhile_append_dropWhile]

/-- A text is what is left of it without the space around it, between two pieces of space. -/
theorem exists_trimInline (cs : List Char) : ∃ space back, cs.takeWhile isInlineSpace = space
    ∧ cs = space ++ trimInline cs ++ back ∧ ∀ c ∈ space ++ back, isInlineSpace c = true :=
  ⟨_, _, rfl, trimInline_split cs, List.forall_mem_append.mpr
    ⟨inlineSpace_takeWhile cs, fun _ hc => List.mem_rtakeWhile_imp hc⟩⟩

namespace Leaf.Names

variable {p e : Scanner} {tl : TokenLine} {name : Leaf} {sigil : Token} {taken rest : List Token}

section

variable (h : name.Names tl sigil taken rest) (line : p.ReadsLine tl e)
  (opens : sigil.kind.symbolKind?.isSome)

include h line opens

/-- A name ends as the last of its tokens does, which is a word in front of the rest of the line. -/
theorem exists_last (there : name.missing = false) : ∃ ts t, taken = ts ++ [t]
    ∧ IsWord t.kind t.lexeme (rest.flatMap Token.source ++ tl.stop.source)
    ∧ name.source.getLast? = t.lexeme.getLast? := by
  have words := line.words h.body opens
  rcases List.eq_nil_or_concat' taken with rfl | ⟨ts, t, rfl⟩
  · rw [h.missing] at there
    exact absurd there (by decide)
  · have word : IsWord t.kind t.lexeme (rest.flatMap Token.source ++ tl.stop.source) := by
      rw [h.body, List.append_assoc, ← List.cons_append] at words
      exact words.word
    exact ⟨ts, t, rfl, word, by rw [h.source, getLast?_flatMap_source word.ne_nil]⟩

/-- Nothing stands behind a name if nothing can be seen there. -/
theorem rest_eq_nil (space : ∀ c ∈ rest.flatMap Token.source, isInlineSpace c = true) :
    rest = [] :=
  eq_nil_of_space (fun t ht => (line.words h.body opens).solid t (by simp [h.body, ht])) space

/-- The space at the end of a name is all that is left of its line, if the line keeps it. -/
theorem space_behind (there : name.missing = false) :
    let space := (name.source.dropWhile isInlineSpace).rtakeWhile isInlineSpace
    let back := space ++ (rest.flatMap Token.source ++ tl.stop.source)
    space = if tl.keepsSpace && back.all isInlineSpace then back else [] := by
  intro space back
  have inline : ∀ c ∈ space, isInlineSpace c = true := fun c hc => List.mem_rtakeWhile_imp hc
  obtain ⟨ts, t, split, word, last⟩ := h.exists_last line opens there
  have ends (none : rest = []) : tl.body.getLast? = some t := by
    rw [h.body, split, none, List.append_nil, ← List.cons_append, List.getLast?_concat]
  by_cases nothing : space = []
  · -- Nothing is kept by the name, so what is left of the line is nothing, or not all space.
    rw [nothing]
    split
    · next kept =>
      rw [Bool.and_eq_true, List.all_eq_true] at kept
      obtain ⟨keeps, blank⟩ := kept
      have none := h.rest_eq_nil line opens fun c hc => blank c (by simp [back, hc])
      obtain ⟨-, atEnd⟩ := (line.keepsSpace_iff (ends none) word.kind_ne.1).mp keeps
      simp [back, nothing, none, Token.source, line.trivia_of_keepsSpace keeps, atEnd]
    · rfl
  · -- The name ends in space, so its last token is the last one of the text.
    obtain ⟨c, at_end⟩ := Option.isSome_iff_exists.mp (List.getLast?_isSome.mpr nothing)
    have tail : t.lexeme.getLast? = some c := by
      rw [← last, trimInline_split name.source, List.getLast?_append_of_ne_nil _ nothing, at_end]
    obtain ⟨fragment, alone⟩ := word.space_last ⟨c, tail, inline c (List.mem_of_getLast? at_end)⟩
    obtain ⟨behind, stop⟩ := List.append_eq_nil_iff.mp alone
    have none := h.rest_eq_nil line opens (by simp [behind])
    have keeps := (line.keepsSpace_iff (ends none) word.kind_ne.1).mpr
      ⟨fragment, (List.append_eq_nil_iff.mp stop).2⟩
    have whole : back = space := by
      show space ++ _ = space
      rw [alone, List.append_nil]
    rw [keeps, Bool.true_and, whole, if_pos (List.all_eq_true.mpr inline)]

end

end Leaf.Names

/-! ## 4. Symbols -/

/-- A symbol reaches from the start of its line to the end of what stands on the last line nested in
it, and its selection covers its name. On lines that keep the space at their end, both go on to the
end of the space. -/
structure Symbol.Spans (s : Symbol) (text : List Char) (keeps : Nat → Bool) (l : Line) : Prop where
  start : s.region.start = ⟨l.lineNumber, 0⟩
  stop : ∃ last, (endedLines text)[l.last.lineNumber]? = some last ∧ last.hasContent
    ∧ s.region.stop = ⟨l.last.lineNumber,
      unitLength (if keeps l.last.lineNumber then last.content
        else last.content.rdropWhile isInlineSpace)⟩
  name : ∀ kind name, l.declared? = some (kind, name) → name.missing = false →
    ∃ front back, (physicalLines text)[l.lineNumber]? = some (front ++ s.name ++ back)
      ∧ s.selection = ⟨⟨l.lineNumber, unitLength front⟩, ⟨l.lineNumber,
        unitLength (front ++ s.name
          ++ if keeps l.lineNumber && back.all isInlineSpace then back else [])⟩⟩

section

variable {variant : Variant} {text : List Char} {l : Line} {s : Symbol}

theorem keepsSpace_of_getElem? {k : Nat} {tl : TokenLine}
    (at_k : (TokenLine.ofText text)[k]? = some tl) : keepsSpace text k = tl.keepsSpace := by
  rw [keepsSpace, at_k, Option.any_some]

theorem getElem?_endedLines {k : Nat} {tl : TokenLine}
    (at_k : (TokenLine.ofText text)[k]? = some tl) : (endedLines text)[k]? = some tl.ended := by
  obtain ⟨more, split⟩ := prefix_endedLines text
  have here : ((TokenLine.ofText text).map TokenLine.ended)[k]? = some tl.ended := by
    rw [List.getElem?_map, at_k, Option.map_some]
  rw [← split]
  exact List.getElem?_append_left (List.getElem?_eq_some_iff.mp here).1 |>.trans here

/-- The last line nested in a declaration has something on it. -/
theorem hasContent_last (hl : l ∈ Line.withinAll (SourceFile.ofText variant text).lines)
    (declared : l.declared?.isSome) {tl : TokenLine}
    (at_last : (TokenLine.ofText text)[l.last.lineNumber]? = some tl) : tl.ended.hasContent := by
  have here := Line.last_mem_withinAll hl
  have own : l.isBlank = false := by
    cases l with
    | simple f b => cases b <;> first | rfl | exact absurd declared Bool.false_ne_true
    | element f t ls => rfl
  have solid := isBlank_last l hl own
  obtain ⟨line, found, c, hc, visible⟩ := (hasContent_iff here).mpr solid
  rw [physicalLine_of_tokenLine at_last, Option.some.injEq] at found
  obtain ⟨q, e, reads, -⟩ := exists_readsLine at_last
  rw [← found, TokenLine.source, List.mem_append] at hc
  rcases hc with front | stop
  · refine List.any_eq_true.mpr ⟨c, List.mem_append_left _ front, ?_⟩
    simp [isSpace] at visible
    simp [visible]
  · rw [reads.isSpace_stop c stop] at visible
    exact absurd visible (by decide)

theorem spans_symbol (hl : l ∈ Line.withinAll (SourceFile.ofText variant text).lines)
    (hs : s ∈ l.symbols) : s.Spans text (keepsSpace text) l := by
  have region := (region_symbol hl hs).1
  refine ⟨by rw [region], ?stop, fun kind name declared there => ?name⟩
  case stop =>
    have declares : l.declared?.isSome := by
      obtain ⟨kind, name, declared, -⟩ := Line.mem_symbols.mp hs
      simp [declared]
    obtain ⟨tl, at_last, row⟩ := exists_tokenLine (Line.last_mem_withinAll hl)
    obtain ⟨q, e, reads, -⟩ := exists_readsLine at_last
    refine ⟨tl.ended, getElem?_endedLines at_last, hasContent_last hl declares at_last, ?_⟩
    rw [region, keepsSpace_of_getElem? at_last, ← reads.front_eq, start_endOfLine at_last row]
    simp [Location.after, lineStart]
  case name =>
    obtain ⟨tl, at_k, row⟩ := exists_tokenLine hl
    obtain ⟨q, e, reads, -⟩ := exists_readsLine at_k
    obtain ⟨sigil, taken, rest, opens, names⟩ := exists_names row declared
    have opens : sigil.kind.symbolKind?.isSome := by simp [opens]
    obtain rfl : s = _ := by simpa [l.symbols_eq, declared] using hs
    rw [(names.name_declare reads opens there ..).1, keepsSpace_of_getElem? at_k]
    refine ⟨(tl.indent.toList ++ [sigil]).flatMap Token.source
        ++ name.source.takeWhile isInlineSpace,
      (name.source.dropWhile isInlineSpace).rtakeWhile isInlineSpace
        ++ (rest.flatMap Token.source ++ tl.stop.source), ?_, ?_⟩
    · rw [physicalLine_of_tokenLine at_k, TokenLine.source, names.front_source]
      conv_lhs => rw [trimInline_split name.source]
      simp only [List.append_assoc]
    · have whole : unitLength (name.source.takeWhile isInlineSpace) + (unitLength
          (trimInline name.source) + unitLength
            ((name.source.dropWhile isInlineSpace).rtakeWhile isInlineSpace))
          = unitLength name.source := by
        conv_rhs => rw [trimInline_split name.source]
        simp only [unitLength_append, Nat.add_assoc]
      rw [← names.space_behind reads opens there]
      show name.contentRegion = _
      rw [name.contentRegion_eq (by rw [names.kind]; decide), names.start_eq at_k]
      simp [Location.after, lineStart, unitLength_append, Nat.add_assoc, whole]

end

/-! ## 5. Files -/

/-- The symbols of a text are those of its lines. Each ends behind the last character to be seen on
the last line nested in it, and its selection covers the name that is shown; but where the space at
the end of a line belongs to a comment, or to the fragment that the text ends with, the region goes on
over that space, and so does the selection of a name that nothing else stands behind. -/
theorem symbol_ranges (variant : Variant) (text : List Char) :
    let file := SourceFile.ofText variant text
    Symbol.preorderAll file.symbols = (Line.withinAll file.lines).flatMap Line.symbols
      ∧ ∀ l ∈ Line.withinAll file.lines, ∀ s ∈ l.symbols, s.Spans text (keepsSpace text) l :=
  ⟨preorderAll_symbolsOf _, fun _ hl _ hs => spans_symbol hl hs⟩

/-- The mounting point `a b` with a space behind it, at the end of the text: neither does its region
end behind the `b`, nor is the name all that its selection covers. -/
theorem symbol_over_space :
    let text := ['+', ' ', 'a', ' ', 'b', ' ']
    let file := SourceFile.ofText .html text
    (∃ s, file.symbols = [s] ∧ s.name = ['a', ' ', 'b']
      ∧ s.region.stop = ⟨0, 6⟩ ∧ unitLength (text.rdropWhile isInlineSpace) = 5
      ∧ s.selection = ⟨⟨0, 2⟩, ⟨0, 6⟩⟩ ∧ unitLength s.name = 3)
    ∧ ¬∀ l ∈ Line.withinAll file.lines, ∀ s ∈ l.symbols, s.Spans text (fun _ => false) l := by
  intro text file
  let own : Line := .simple ⟨.origin, none, ⟨.endOfText, ⟨6, 0, 6, 6⟩, [], false⟩, []⟩
    (.mountingPoint ⟨.plus, .origin, ['+'], false⟩
      ⟨.literal, ⟨1, 0, 1, 1⟩, [' ', 'a', ' ', 'b', ' '], false⟩)
  let symbol : Symbol := .node ['a', ' ', 'b'] .listMountingPoint ⟨⟨0, 0⟩, ⟨0, 6⟩⟩ ⟨⟨0, 2⟩, ⟨0, 6⟩⟩ []
  -- The recursion of the lexer is well-founded, and closed to `rfl` alone.
  have lines : file.lines = [own] := by
    unfold file text own
    with_unfolding_all rfl
  have symbols : own.symbols = [symbol] := rfl
  refine ⟨⟨symbol, ?_, rfl, rfl, by decide, rfl, by decide⟩, fun all => ?_⟩
  · rw [SourceFile.symbols, lines, Line.symbolsOf, symbols]
    rfl
  · have spans := all own (by simp [lines, Line.withinAll, own, Line.within]) symbol
      (by simp [symbols])
    obtain ⟨last, found, -, stop⟩ := spans.stop
    obtain rfl : last = ⟨text, []⟩ := Option.some.inj (found.symm.trans (by decide))
    exact absurd stop (by decide)

/-- A comment keeps its space also in front of a break, and the element around it ends with it. -/
example : (SourceFile.ofText .html ['>', 'p', '\n', ' ', 'n', ' ', '\n']).symbols.map Symbol.region
    = [⟨⟨0, 0⟩, ⟨1, 3⟩⟩] := by decide +kernel

end OffsideMarkup
