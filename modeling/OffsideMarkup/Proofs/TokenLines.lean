/-
OffsideMarkup.Proofs.TokenLines — the steps of the lexer, gathered into lines.

A scanner is stepped forever; the token lines of a text are a list. `Reads p ls f` says that they
belong together: from a scanner `p` in front of a line, stepping meets the tokens of the lines `ls`
one after the other and comes to stand on the end of the text, `f`. It holds of every text
(`reads_ofText`), and by induction over it a property of every line is proved from two facts: the
line before ends where this one starts, and the lexer has just opened a line.

* `Scanner.scan_cases` — one step: the indentation, or a lexeme with the space in front of it.
* `Passes.inLine` — the tokens passed inside a line stand side by side (`InLine`).
* `OpensLine.pastIndent_scan` — the step behind the indentation sees the content of the line.
-/
import Mathlib.Data.List.Chain
import Mathlib.Data.List.DropRight
import OffsideMarkup.Grammar.TokenLine
import OffsideMarkup.Proofs.Lexeme

namespace OffsideMarkup

/-- A token behind which no token of the same line can come. -/
def Kind.endsLine : Kind → Bool
  | .lineBreak | .endOfText => true
  | _ => false

theorem Kind.ne_of_endsLine_eq_false {k : Kind} (h : k.endsLine = false) :
    k ≠ .lineBreak ∧ k ≠ .endOfText := by
  constructor <;> rintro rfl <;> exact absurd h (by decide)

/-- A token without characters stops where it starts. -/
theorem Token.stop_of_source_nil {t : Token} (kind : t.kind ≠ .lineBreak) (h : t.source = []) :
    t.stop = t.start := by
  rw [Token.stop, if_neg kind, h, Location.after_nil]

theorem TokenLine.stop_ofTokens (ts : List Token) (stop : Token) :
    (ofTokens ts stop).stop = stop := by
  cases ts with
  | nil => rfl
  | cons t ts => rw [ofTokens]; split <;> rfl

/-! ## 1. The rest of a line -/

/-- Where the next token of a line starts. -/
def nextStart (stop : Token) (given : List Token) : Location := (given.headD stop).start

/-- What may be left of a line that a token ends: each token stops where the next one starts, and
none of them ends the line. -/
structure InLine (stop : Token) (given : List Token) : Prop where
  chain : List.IsChain (fun t u => t.stop = u.start) (given ++ [stop])
  inner : ∀ t ∈ given, t.kind.endsLine = false

namespace InLine

variable {stop t : Token} {ts given rest : List Token}

theorem of_suffix (h : InLine stop given) (suffix : rest <:+ given) : InLine stop rest := by
  obtain ⟨front, rfl⟩ := suffix
  have chain := h.chain
  rw [List.append_assoc] at chain
  exact ⟨chain.right_of_append, fun t ht => h.inner t (List.mem_append_right front ht)⟩

theorem tail (h : InLine stop (t :: ts)) : InLine stop ts := h.of_suffix (List.suffix_cons t ts)

/-- Behind the first token the next one starts. -/
theorem stop_head (h : InLine stop (t :: ts)) : t.stop = nextStart stop ts := by
  have chain := h.chain
  cases ts with
  | nil => exact (List.isChain_cons_cons.mp chain).1
  | cons u us => exact (List.isChain_cons_cons.mp chain).1

/-- Inside a line, the text of the tokens in front says where a token starts. -/
theorem nextStart_append {front : List Token} (h : InLine stop (front ++ rest)) :
    (nextStart stop (front ++ rest)).after (front.flatMap Token.source) = nextStart stop rest := by
  induction front with
  | nil => rfl
  | cons t ts ih =>
    rw [List.cons_append] at h
    have inside := (Kind.ne_of_endsLine_eq_false (h.inner t List.mem_cons_self)).1
    have here : t.start.after t.source = nextStart stop (ts ++ rest) := by
      rw [← h.stop_head, Token.stop, if_neg inside]
    show t.start.after _ = _
    rw [List.flatMap_cons, Location.after_append, here, ih h.tail]

end InLine

namespace Scanner

/-! ## 2. One step -/

theorem start_scan (s : Scanner) : s.scan.token.start = s.token.stop := start_cut ..

theorem source_scan (s : Scanner) : s.scan.token.source ++ s.scan.rest = s.rest := source_cut ..

/-- A step gives the indentation, where a line starts with space, or else a lexeme. -/
theorem scan_cases (s : Scanner) :
    (s.token.stop.column = 0 ∧ s.rest.takeWhile isInlineSpace ≠ []
      ∧ s.scan = ⟨⟨.indentation, s.token.stop, [], s.rest.takeWhile isInlineSpace⟩,
          s.rest.dropWhile isInlineSpace⟩)
    ∨ ∃ k lx rest, ¬(s.token.stop.column = 0 ∧ s.rest.takeWhile isInlineSpace ≠ [])
      ∧ Lexes s.token.kind.opensLine (s.rest.dropWhile isInlineSpace) k lx rest
      ∧ s.scan = ⟨⟨k, s.token.stop, s.rest.takeWhile isInlineSpace, lx⟩, rest⟩ := by
  by_cases h : s.token.stop.column = 0 ∧ s.rest.takeWhile isInlineSpace ≠ []
  · left
    refine ⟨h.1, h.2, ?_⟩
    rw [scan, cut_of_indented h.1 h.2]
  · right
    refine ⟨_, _, _, h, lexes _ _, ?_⟩
    rw [scan, cut_of_content h]

/-- On the end of the text nothing is left. -/
theorem scan_of_endOfText {s : Scanner} (h : s.scan.token.kind = .endOfText) :
    s.scan.token.lexeme = [] ∧ s.scan.rest = [] := by
  rcases s.scan_cases with ⟨-, -, e⟩ | ⟨k, lx, rest, -, l, e⟩
  · rw [e] at h
    exact absurd h (by simp)
  · rw [e] at h ⊢
    dsimp only at h
    subst h
    exact l.of_endOfText.2

/-- Nothing is left of a text if its end comes next, with nothing in front. -/
theorem rest_of_endOfText {s : Scanner} (h : s.scan.token.kind = .endOfText)
    (empty : s.scan.token.source = []) : s.rest = [] := by
  rw [← s.source_scan, empty, (scan_of_endOfText h).2]
  rfl

/-- Behind everything there is only the end of the text. -/
theorem scan_of_rest_nil {s : Scanner} (h : s.rest = []) :
    s.scan.token.kind = .endOfText ∧ s.scan.token.source = [] := by
  rw [scan, h]
  simp [cut, lexeme, Token.source]

/-- In front of a lexeme there is space of its line, and nothing else. -/
theorem inlineSpace_trivia (s : Scanner) : ∀ c ∈ s.scan.token.trivia, isInlineSpace c = true := by
  rcases s.scan_cases with ⟨-, -, e⟩ | ⟨k, lx, rest, -, l, e⟩
  · rw [e]; simp
  · rw [e]; exact inlineSpace_takeWhile s.rest

/-- A line break does not open a line, and its lexeme is a whole break. -/
theorem scan_of_lineBreak {s : Scanner} (h : s.scan.token.kind = .lineBreak) :
    s.token.kind.opensLine = false ∧ IsBreak s.scan.token.lexeme s.scan.rest := by
  rcases s.scan_cases with ⟨-, -, e⟩ | ⟨k, lx, rest, -, l, e⟩
  · rw [e] at h
    exact absurd h (by simp)
  · rw [e] at h ⊢
    dsimp only at h
    subst h
    exact l.of_lineBreak

/-- On any other token there is no break. -/
theorem unbroken_scan {s : Scanner} (h : s.scan.token.kind ≠ .lineBreak) :
    Unbroken s.scan.token.source := by
  rcases s.scan_cases with ⟨-, -, e⟩ | ⟨k, lx, rest, -, l, e⟩
  · rw [e]
    exact unbroken_of_inlineSpace (inlineSpace_takeWhile _)
  · rw [e] at h ⊢
    exact unbroken_append.mpr ⟨unbroken_of_inlineSpace (inlineSpace_takeWhile _), l.unbroken h⟩

/-! ## 3. Many steps -/

/-- Stepping from one scanner to another meets these tokens, the last one not included. -/
def Passes (s : Scanner) : List Token → Scanner → Prop
  | [], e => s = e
  | t :: ts, e => s.token = t ∧ s.scan.Passes ts e

theorem passes_append {s e : Scanner} {ts us : List Token} :
    s.Passes (ts ++ us) e ↔ ∃ m, s.Passes ts m ∧ m.Passes us e := by
  induction ts generalizing s with
  | nil => simp [Passes]
  | cons t ts ih => simp [Passes, ih, and_assoc]

/-- Each token stops where the next one starts. -/
theorem Passes.isChain {s e : Scanner} {ts : List Token} (h : s.Passes ts e) :
    List.IsChain (fun t u => t.stop = u.start) (ts ++ [e.token]) := by
  induction ts generalizing s with
  | nil => exact List.isChain_singleton _
  | cons t ts ih =>
    obtain ⟨rfl, h⟩ := h
    refine List.isChain_cons.mpr ⟨?_, ih h⟩
    intro u hu
    have next : u = s.scan.token := by
      cases ts with
      | nil => rw [h]; simpa using hu.symm
      | cons v vs => rw [h.1]; simpa using hu.symm
    rw [next, start_scan]

/-- The tokens passed inside a line are the rest of a line. -/
theorem Passes.inLine {s e : Scanner} {ts : List Token} (h : s.Passes ts e)
    (inner : ∀ t ∈ ts, t.kind.endsLine = false) : InLine e.token ts := ⟨h.isChain, inner⟩

theorem Passes.nextStart {s e : Scanner} {ts : List Token} (h : s.Passes ts e) :
    nextStart e.token ts = s.token.start := by
  cases ts with
  | nil => rw [Passes] at h; rw [h]; rfl
  | cons t ts => rw [h.1]; rfl

/-- What has been passed and what is still ahead are the text. -/
theorem Passes.source {s e : Scanner} {ts : List Token} (h : s.scan.Passes ts e) :
    ts.flatMap Token.source ++ (e.token.source ++ e.rest) = s.rest := by
  induction ts generalizing s with
  | nil =>
    rw [Passes] at h
    rw [← h, List.flatMap_nil, List.nil_append, source_scan]
  | cons t ts ih =>
    obtain ⟨rfl, h⟩ := h
    rw [List.flatMap_cons, List.append_assoc, ih h, source_scan]

theorem Passes.unbroken {s e : Scanner} {ts : List Token} (h : s.scan.Passes ts e)
    (inner : ∀ t ∈ ts, t.kind.endsLine = false) : Unbroken (ts.flatMap Token.source) := by
  induction ts generalizing s with
  | nil => intro c hc; simp at hc
  | cons t ts ih =>
    obtain ⟨rfl, h⟩ := h
    have first := (Kind.ne_of_endsLine_eq_false (inner s.scan.token List.mem_cons_self)).1
    rw [List.flatMap_cons]
    exact unbroken_append.mpr
      ⟨unbroken_scan first, ih h fun u hu => inner u (List.mem_cons_of_mem _ hu)⟩

/-- Behind a token with characters, a line does not start. -/
theorem column_stop_pos {t : Token} (kind : t.kind ≠ .lineBreak) (solid : t.source ≠ []) :
    0 < t.stop.column := by
  rw [Token.stop, if_neg kind]
  show 0 < t.start.column + unitLength t.source
  cases source : t.source with
  | nil => exact absurd source solid
  | cons c cs =>
    have := unitWidth_pos c
    rw [unitLength_cons]
    omega

/-- Behind the first token of the content of a line, every token has characters. -/
theorem Passes.solid {s e : Scanner} {ts : List Token} (h : s.scan.Passes ts e)
    (inner : ∀ t ∈ ts, t.kind.endsLine = false) (kind : s.token.kind.opensLine = false)
    (column : 0 < s.token.stop.column) : ∀ t ∈ ts, t.source ≠ [] := by
  induction ts generalizing s with
  | nil => simp
  | cons t ts ih =>
    obtain ⟨rfl, h⟩ := h
    have inside := inner s.scan.token List.mem_cons_self
    rcases s.scan_cases with ⟨start, -, -⟩ | ⟨k, lx, rest, -, l, e⟩
    · omega
    · have same : s.scan.token.kind = k := by rw [e]
      rw [kind] at l
      rw [same] at inside
      obtain ⟨brk, atEnd⟩ := Kind.ne_of_endsLine_eq_false inside
      obtain ⟨characters, opens⟩ := l.inside atEnd
      have source : s.scan.token.source ≠ [] := by rw [e]; simp [Token.source, characters]
      refine List.forall_mem_cons.mpr ⟨source, ih h ?_ ?_ ?_⟩
      · exact fun u hu => inner u (List.mem_cons_of_mem _ hu)
      · rw [same]
        exact opens brk
      · exact column_stop_pos (same ▸ brk) source

/-- What is reached by steps is reached by a last step. -/
theorem Passes.exists_scan {s e : Scanner} {ts : List Token} (h : s.scan.Passes ts e) :
    ∃ q : Scanner, e = q.scan := by
  induction ts generalizing s with
  | nil => exact ⟨s, h.symm⟩
  | cons t ts ih => exact ih h.2

/-! ## 4. The start of a line -/

/-- In front of a line: at the start of the text or on a line break. -/
def OpensLine (p : Scanner) : Prop :=
  p.token.stop.column = 0 ∧ (p.token.kind = .unknown ∨ p.token.kind = .lineBreak)

theorem opensLine_start (text : List Char) : (start text).OpensLine := ⟨rfl, .inl rfl⟩

theorem opensLine_of_lineBreak {p : Scanner} (h : p.token.kind = .lineBreak) : p.OpensLine := by
  refine ⟨?_, .inr h⟩
  rw [Token.stop, if_pos h]
  rfl

theorem OpensLine.kind_opensLine {p : Scanner} (h : p.OpensLine) :
    p.token.kind.opensLine = true := by
  rcases h.2 with e | e <;> rw [e] <;> rfl

theorem takeWhile_dropWhile_inlineSpace (cs : List Char) :
    (cs.dropWhile isInlineSpace).takeWhile isInlineSpace = [] := by
  have first := List.head?_dropWhile_not isInlineSpace cs
  cases h : cs.dropWhile isInlineSpace with
  | nil => rfl
  | cons c ds =>
    rw [h, List.head?_cons] at first
    rw [List.takeWhile_cons_of_neg (by simp [first])]

/-- The indentation, if the scanner stands on one. -/
def indent? (s : Scanner) : Option Token :=
  if s.token.kind = .indentation then some s.token else none

/-- The indentation is all the space that the line starts with. -/
theorem OpensLine.indent?_scan {p : Scanner} (h : p.OpensLine) :
    p.scan.indent? =
      if p.rest.takeWhile isInlineSpace = [] then none
      else some ⟨.indentation, p.token.stop, [], p.rest.takeWhile isInlineSpace⟩ := by
  rcases p.scan_cases with ⟨-, space, e⟩ | ⟨k, lx, rest, content, l, e⟩
  · rw [e, if_neg space]
    rfl
  · have space : p.rest.takeWhile isInlineSpace = [] := by
      by_contra some_space
      exact content ⟨h.1, some_space⟩
    rw [e, if_pos space, indent?, if_neg l.kind_ne_indentation]

/-- Behind the indentation, if there is one, the content of the line starts with a lexeme that
opens a line. -/
theorem OpensLine.pastIndent_scan {p : Scanner} (h : p.OpensLine) :
    ∃ k lx rest, Lexes true (p.rest.dropWhile isInlineSpace) k lx rest
      ∧ p.scan.pastIndent
        = ⟨⟨k, p.token.stop.after (p.rest.takeWhile isInlineSpace), [], lx⟩, rest⟩ := by
  rcases p.scan_cases with ⟨-, space, e⟩ | ⟨k, lx, rest, content, l, e⟩
  · have no_space := takeWhile_dropWhile_inlineSpace p.rest
    have past : p.scan.pastIndent = p.scan.scan := by rw [pastIndent, if_pos (by rw [e])]
    rcases p.scan.scan_cases with ⟨-, more, -⟩ | ⟨k, lx, rest, -, l, e'⟩
    · rw [e, no_space] at more
      exact absurd rfl more
    · rw [e] at l e'
      refine ⟨k, lx, rest, ?_, ?_⟩
      · rwa [List.dropWhile_idempotent, Token.kind] at l
      · rw [past, e, e', no_space]
        rfl
  · have space : p.rest.takeWhile isInlineSpace = [] := by
      by_contra some_space
      exact content ⟨h.1, some_space⟩
    rw [h.kind_opensLine] at l
    refine ⟨k, lx, rest, l, ?_⟩
    rw [pastIndent, e, if_neg l.kind_ne_indentation, space]
    rfl

/-! ## 5. Lines -/

/-- Stepping from a scanner in front of a line meets the tokens of the line and comes to stand on
the one that ends it. -/
structure ReadsLine (p : Scanner) (l : TokenLine) (e : Scanner) : Prop where
  opens : p.OpensLine
  content : p.scan.token.kind ≠ .endOfText
  indent : l.indent = p.scan.indent?
  body : p.scan.pastIndent.Passes l.body e
  inner : ∀ t ∈ l.body, t.kind.endsLine = false
  stop : e.token = l.stop
  ends : l.stop.kind.endsLine = true

/-- The same for line after line, up to the end of the text. -/
inductive Reads : Scanner → List TokenLine → Scanner → Prop
  | done {p : Scanner} (atEnd : p.scan.token.kind = .endOfText)
      (empty : p.scan.token.source = []) : Reads p [] p.scan
  | line {p e f : Scanner} {l : TokenLine} {ls : List TokenLine} (first : p.ReadsLine l e)
      (later : Reads e ls f) : Reads p (l :: ls) f

/-- Behind the end of the text there is no line. -/
theorem Reads.of_endOfText {p f : Scanner} {ls : List TokenLine} (h : p.Reads ls f)
    (atEnd : p.token.kind = .endOfText) : ls = [] := by
  cases h with
  | done => rfl
  | line first => rcases first.opens.2 with e | e <;> rw [atEnd] at e <;> exact absurd e (by decide)

/-- The tokens of a line, its end apart, as the scanner meets them. -/
theorem passes_ofTokens {p e : Scanner} {ts : List Token} (h : p.scan.Passes ts e)
    (stop : Token) (some_token : ts ≠ []) :
    (TokenLine.ofTokens ts stop).indent = p.scan.indent?
      ∧ p.scan.pastIndent.Passes (TokenLine.ofTokens ts stop).body e := by
  cases ts with
  | nil => exact absurd rfl some_token
  | cons t ts =>
    obtain ⟨rfl, h⟩ := h
    rw [TokenLine.ofTokens, indent?, pastIndent]
    split
    · exact ⟨rfl, h⟩
    · exact ⟨rfl, rfl, h⟩

/-- The end of the text in front of which nothing stands on its line. -/
theorem OpensLine.source_of_endOfText {p : Scanner} (h : p.OpensLine)
    (atEnd : p.scan.token.kind = .endOfText) : p.scan.token.source = [] := by
  rcases p.scan_cases with ⟨-, -, e⟩ | ⟨k, lx, rest, content, l, e⟩
  · rw [e] at atEnd
    exact absurd atEnd (by simp)
  · have space : p.rest.takeWhile isInlineSpace = [] := by
      by_contra some_space
      exact content ⟨h.1, some_space⟩
    rw [e] at atEnd
    dsimp only at atEnd
    subst atEnd
    rw [e, Token.source, space, l.of_endOfText.2.1]
    rfl

/-- A line that has been stepped over, up to the token that ends it. -/
theorem Reads.of_passes {p e f : Scanner} {ts : List Token} {ls : List TokenLine}
    (opens : p.OpensLine) (some_token : ts ≠ []) (passed : p.scan.Passes ts e)
    (inner : ∀ t ∈ ts, t.kind.endsLine = false) (ends : e.token.kind.endsLine = true)
    (later : e.Reads ls f) : p.Reads (TokenLine.ofTokens ts e.token :: ls) f := by
  obtain ⟨indent, body⟩ := passes_ofTokens passed e.token some_token
  have stop := TokenLine.stop_ofTokens ts e.token
  refine .line ⟨opens, ?_, indent, body, ?_, stop.symm, by rw [stop]; exact ends⟩ later
  · intro atEnd
    cases ts with
    | nil => exact some_token rfl
    | cons t ts =>
      have := inner t List.mem_cons_self
      rw [← passed.1, atEnd] at this
      exact absurd this (by decide)
  · intro t ht
    refine inner t ?_
    cases ts with
    | nil => exact absurd rfl some_token
    | cons u us =>
      rw [TokenLine.ofTokens] at ht
      split at ht
      · exact List.mem_cons_of_mem u ht
      · exact ht

theorem run_ne_nil (s : Scanner) : s.run ≠ [] := by
  rw [run]
  split <;> simp

/-- Cutting the rest of the steps into lines, some tokens of the first line being passed. -/
theorem reads_split (s : Scanner) : ∀ (p : Scanner) (before : List Token), p.OpensLine →
    p.scan.Passes before.reverse s.scan → (∀ t ∈ before, t.kind.endsLine = false) →
    ∃ f, p.Reads (TokenLine.split before (s.run.map (·.token))) f
      ∧ (s.run.map (·.token)).getLast?.map Token.stop = some f.token.start := by
  induction s using run.induct with
  | case1 s atEnd =>
    intro p before opens passed inner
    rw [run, if_pos atEnd, List.map_singleton, TokenLine.split, atEnd, if_neg (by decide),
      if_pos rfl]
    cases before with
    | nil =>
      have same : p.scan = s.scan := passed
      rw [← same] at atEnd ⊢
      have empty := opens.source_of_endOfText atEnd
      refine ⟨p.scan, .done atEnd empty, ?_⟩
      rw [List.getLast?_singleton, Option.map_some,
        Token.stop_of_source_nil (by simp [atEnd]) empty]
    | cons t before =>
      have behind := scan_of_rest_nil (scan_of_endOfText atEnd).2
      refine ⟨s.scan.scan, ?_, ?_⟩
      · exact .of_passes opens (by simp) passed (fun u hu => inner u (List.mem_reverse.mp hu))
          (by rw [atEnd]; rfl) (.done behind.1 behind.2)
      · rw [List.getLast?_singleton, Option.map_some, start_scan]
  | case2 s more ih =>
    intro p before opens passed inner
    rw [run, if_neg more, List.map_cons, TokenLine.split]
    rw [List.getLast?_cons_of_ne_nil (by simpa using s.scan.run_ne_nil)]
    split
    · next brk =>
      obtain ⟨f, reads, stop⟩ := ih s.scan [] (opensLine_of_lineBreak brk) rfl (by simp)
      refine ⟨f, ?_, stop⟩
      refine .of_passes opens ?_ passed (fun u hu => inner u (List.mem_reverse.mp hu))
        (by rw [brk]; rfl) reads
      intro nothing
      have same : p.scan = s.scan := by rw [nothing] at passed; exact passed
      have := (scan_of_lineBreak (same ▸ brk)).1
      rw [opens.kind_opensLine] at this
      exact absurd this (by decide)
    · next brk =>
      have inside : s.scan.token.kind.endsLine = false := by
        revert brk more
        generalize s.scan.token.kind = k
        cases k <;> simp [Kind.endsLine]
      obtain ⟨f, reads, stop⟩ := ih p (s.scan.token :: before) opens
        (by rw [List.reverse_cons]; exact passes_append.mpr ⟨s.scan, passed, rfl, rfl⟩)
        (List.forall_mem_cons.mpr ⟨inside, inner⟩)
      exact ⟨f, reads, stop⟩

/-- The lines of a text are read from its start to its end. The second part says where the end is:
behind the last token. -/
theorem reads_ofText (text : List Char) :
    ∃ f, (start text).Reads (TokenLine.ofText text) f
      ∧ (tokens text).getLast?.map Token.stop = some f.token.start :=
  reads_split (start text) (start text) [] (opensLine_start text) rfl (by simp)

end Scanner

end OffsideMarkup
