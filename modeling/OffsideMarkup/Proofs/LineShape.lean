/-
OffsideMarkup.Proofs.LineShape — token lines are the lines of the text.

The tokens of a line and the characters of a line are two accounts of one thing. This module says
what one tells of the other.

* `opens_body` — how a line opens: nothing, a comment by itself, or a sigil.
* `Reads.physicalLines` — token lines have the characters of the lines of the text.
* `shapes_ofText` — indentation, blankness and the sigil of an element, read off the characters.

A comment reaches to the end of its line, so nothing stands behind it. That is the lexer's doing,
and the grammar relies on it.
-/
import OffsideMarkup.Proofs.ReaderLaws

namespace OffsideMarkup

/-! ## 1. How a line opens -/

/-- The content of a line, by the characters from its start to the end of the text and by its
tokens. -/
inductive Opens : List Char → List Token → Prop
  | nothing : Opens [] []
  | comment {c : Char} {cs : List Char} {t : Token} (kind : t.kind = .comment)
      (plain : sigilKind? c = none)
      (source : t.source = (c :: cs).takeWhile (!isLineBreak ·)) : Opens (c :: cs) [t]
  | sigil {c : Char} {cs : List Char} {t : Token} {ts : List Token}
      (kind : sigilKind? c = some t.kind) (source : t.source = [c]) : Opens (c :: cs) (t :: ts)

/-- What is left when all up to a break is dropped starts with the break. -/
theorem isLineBreak_of_dropWhile (cs : List Char) :
    ∀ c ∈ (cs.dropWhile (!isLineBreak ·)).head?, isLineBreak c = true := by
  intro c hc
  have head := List.head?_dropWhile_not (!isLineBreak ·) cs
  rw [Option.mem_def] at hc
  rw [hc] at head
  simpa using head

namespace Scanner

/-- Behind a comment, which ends in front of a break, its line ends. -/
theorem endsLine_scan_of_comment {s : Scanner} (kind : s.token.kind = .comment)
    (rest : ∀ c ∈ s.rest.head?, isLineBreak c = true) : s.scan.token.kind.endsLine = true := by
  cases h : s.rest with
  | nil => rw [(scan_of_rest_nil h).1]; rfl
  | cons d ds =>
    have brk : isLineBreak d = true := rest d (by rw [h]; rfl)
    have solid : isInlineSpace d = false := isInlineSpace_eq_false_of_isLineBreak brk
    rcases s.scan_cases with ⟨-, space, -⟩ | ⟨k, lx, rest, -, l, e⟩
    · rw [h, List.takeWhile_cons_of_neg (by simp [solid])] at space
      exact absurd rfl space
    · rw [h, List.dropWhile_cons_of_neg (by simp [solid]), kind] at l
      rw [e, l.of_isLineBreak brk]
      rfl

/-- The content of a line opens in one of three ways. -/
theorem opens_body {p e : Scanner} {ts : List Token} (opens : p.OpensLine)
    (body : p.scan.pastIndent.Passes ts e) (inner : ∀ t ∈ ts, t.kind.endsLine = false)
    (ends : e.token.kind.endsLine = true) : Opens (p.rest.dropWhile isInlineSpace) ts := by
  obtain ⟨k, lx, rest, l, past⟩ := opens.pastIndent_scan
  cases ts with
  | nil =>
    rw [Passes, past] at body
    rw [← body] at ends
    dsimp only at ends
    generalize p.rest.dropWhile isInlineSpace = cs at l ⊢
    cases l with
    | endOfText => exact .nothing
    | sigil _ sig =>
      have := sigil_is_content sig
      revert ends this
      cases k <;> simp [Kind.endsLine]
    | comment => exact absurd ends (by decide)
    | mustacheOpen _ later => exact absurd later (by decide)
    | mustacheClose _ later => exact absurd later (by decide)
    | lineBreak later => exact absurd later (by decide)
    | textFragment _ later => exact absurd later (by decide)
  | cons t ts =>
    have behind := endsLine_scan_of_comment (s := p.scan.pastIndent)
    obtain ⟨first, body⟩ := body
    have inside := inner t List.mem_cons_self
    rw [past] at first behind
    subst first
    dsimp only at inside behind
    generalize p.rest.dropWhile isInlineSpace = cs at l ⊢
    cases l with
    | endOfText => exact absurd inside (by decide)
    | sigil cs sig => exact .sigil sig rfl
    | comment cs first plain =>
      cases ts with
      | nil => exact .comment rfl plain rfl
      | cons u us =>
        have ends := behind rfl (isLineBreak_of_dropWhile _)
        rw [← past, body.1, inner u (by simp)] at ends
        exact absurd ends (by decide)
    | mustacheOpen _ later => exact absurd later (by decide)
    | mustacheClose _ later => exact absurd later (by decide)
    | lineBreak later => exact absurd later (by decide)
    | textFragment _ later => exact absurd later (by decide)

end Scanner

/-- Nothing stands behind a comment. -/
theorem Opens.comment_alone {cs : List Char} {given : List Token} (h : Opens cs given) :
    ∀ t ts, given = t :: ts → t.kind = .comment → ts = [] := by
  rintro t ts rfl kind
  cases h with
  | comment => rfl
  | sigil sig => exact absurd kind (sigil_is_content sig).2.2.2.2.2.1

/-! ## 2. The characters of a line -/

namespace TokenLine

/-- The tokens of a line in front of the one that ends it. -/
def front (l : TokenLine) : List Token := l.indent.toList ++ l.body

/-- The characters of a line with its break. -/
def source (l : TokenLine) : List Char := l.front.flatMap Token.source ++ l.stop.source

theorem start_eq_nextStart (l : TokenLine) : l.start = nextStart l.stop l.front := by
  rw [start, front]
  cases l.indent <;> rfl

end TokenLine

namespace Scanner

theorem passes_indent {s e : Scanner} {ts : List Token} (h : s.pastIndent.Passes ts e) :
    s.Passes (s.indent?.toList ++ ts) e := by
  rw [pastIndent] at h
  rw [indent?]
  split at h
  · next kind => rw [if_pos kind]; exact ⟨rfl, h⟩
  · next kind => rw [if_neg kind]; exact h

theorem endsLine_indent? (s : Scanner) : ∀ t ∈ s.indent?, t.kind.endsLine = false := by
  intro t ht
  rw [indent?] at ht
  split at ht
  · next kind =>
    obtain rfl : s.token = t := Option.some.inj ht
    rw [kind]
    rfl
  · exact absurd ht (by simp)

namespace ReadsLine

variable {p e : Scanner} {l : TokenLine}

theorem passes (h : p.ReadsLine l e) : p.scan.Passes l.front e := by
  rw [TokenLine.front, h.indent]
  exact passes_indent h.body

theorem inLine (h : p.ReadsLine l e) : InLine l.stop l.front := by
  rw [← h.stop]
  refine h.passes.inLine (List.forall_mem_append.mpr ⟨?_, h.inner⟩)
  rw [h.indent]
  intro t ht
  exact p.scan.endsLine_indent? t (Option.mem_toList.mp ht)

theorem inLine_body (h : p.ReadsLine l e) : InLine l.stop l.body :=
  h.inLine.of_suffix (List.suffix_append ..)

/-- A line starts where the one before it stops. -/
theorem start (h : p.ReadsLine l e) : l.start = p.token.stop := by
  rw [l.start_eq_nextStart, ← h.stop, h.passes.nextStart, start_scan]

theorem rest (h : p.ReadsLine l e) : l.source ++ e.rest = p.rest := by
  have := h.passes.source
  rw [h.stop, ← List.append_assoc] at this
  exact this

/-- The token that ends a line is a break, or the end of the text. -/
theorem stop_cases (h : p.ReadsLine l e) :
    (∀ c ∈ l.stop.trivia, isInlineSpace c = true)
      ∧ (l.stop.kind = .lineBreak ∧ IsBreak l.stop.lexeme e.rest
        ∨ l.stop.kind = .endOfText ∧ l.stop.lexeme = [] ∧ e.rest = []) := by
  obtain ⟨q, rfl⟩ := h.passes.exists_scan
  have ends := h.ends
  rw [← h.stop] at ends ⊢
  refine ⟨q.inlineSpace_trivia, ?_⟩
  cases kind : q.scan.token.kind with
  | lineBreak => exact .inl ⟨rfl, (scan_of_lineBreak kind).2⟩
  | endOfText => exact .inr ⟨rfl, scan_of_endOfText kind⟩
  | _ => rw [kind] at ends; exact absurd ends (by decide)

/-- There is no line without characters. -/
theorem source_ne_nil (h : p.ReadsLine l e) : l.source ≠ [] := by
  intro nothing
  have stop : l.stop.source = [] := (List.append_eq_nil_iff.mp nothing).2
  have lexeme : l.stop.lexeme = [] := (List.append_eq_nil_iff.mp stop).2
  obtain ⟨-, ⟨-, brk⟩ | ⟨-, -, rest⟩⟩ := h.stop_cases
  · rw [lexeme] at brk
    cases brk
  · have none := h.rest
    rw [nothing, rest] at none
    exact h.content (scan_of_rest_nil none.symm).1

/-- The characters of a line are the rest of a line, from its start on. -/
theorem restOfLine (h : p.ReadsLine l e) : RestOfLine e.rest l.source := by
  have front : Unbroken (l.front.flatMap Token.source) := h.passes.unbroken h.inLine.inner
  obtain ⟨space, ending⟩ := h.stop_cases
  have closing : RestOfLine e.rest l.stop.lexeme := by
    rcases ending with ⟨-, brk⟩ | ⟨-, nothing, rest⟩
    · exact .brk brk
    · rw [nothing]
      exact .nothing rest
  rw [TokenLine.source, Token.source]
  exact (closing.prepend (unbroken_of_inlineSpace space)).prepend front

/-- The first line of what the scanner has in front of it. -/
theorem physicalLines_rest (h : p.ReadsLine l e) :
    physicalLines p.rest = l.source :: physicalLines e.rest := by
  rw [← h.rest]
  exact h.restOfLine.physicalLines h.source_ne_nil

end ReadsLine

/-- The token lines of a text are its lines. -/
theorem Reads.physicalLines {p f : Scanner} {ls : List TokenLine} (h : p.Reads ls f) :
    physicalLines p.rest = ls.map TokenLine.source := by
  induction h with
  | @done p atEnd empty =>
    rw [rest_of_endOfText atEnd empty]
    rfl
  | line first later ih => rw [first.physicalLines_rest, ih, List.map_cons]

end Scanner

/-! ## 3. The shape of a line -/

/-- Space of either kind, inside a line or at its end. -/
def isSpace (c : Char) : Bool := isInlineSpace c || isLineBreak c

/-- What the offside rule looks at in a line. -/
structure LineShape where
  number : Nat
  /-- UTF-16 units of the space it starts with. -/
  indent : Nat
  /-- There is nothing but space on it. -/
  blank : Bool
  /-- Its content starts with the sigil of an element. -/
  element : Bool
  deriving DecidableEq, Repr

/-- The shape of a line, by its characters. -/
def LineShape.ofLine (number : Nat) (line : List Char) : LineShape :=
  ⟨number, unitLength (line.takeWhile isInlineSpace), line.all isSpace,
    (line.dropWhile isInlineSpace).head? == some '>'⟩

/-- The shapes of the lines of a text. -/
def lineShapes (text : List Char) : List LineShape := (physicalLines text).mapIdx LineShape.ofLine

/-- The line declares an element. -/
def Row.isElement : Row → Bool
  | .simple _ _ => false
  | .element _ _ => true

/-- The shape of a line, by what was read. -/
def Row.shape (r : Row) : LineShape := ⟨r.frame.start.line, r.level, r.isBlank, r.isElement⟩

theorem frame_ofTokenLine (l : TokenLine) :
    (Row.ofTokenLine l).frame =
      ⟨l.start, l.indent.map .ofToken, .ofToken l.stop,
        (Reader.content l.stop l.body).findings⟩ := by
  rw [Row.ofTokenLine]
  cases (Reader.content l.stop l.body).value <;> rfl

theorem frame_row (l : Line) : l.row.frame = l.frame := by
  cases l <;> rfl

theorem isBlank_row (l : Line) : l.row.isBlank = l.isBlank := by
  cases l <;> rfl

namespace Reader

def Content.isBlank : Content → Bool
  | .element _ => false
  | .simple body => body.isBlank

def Content.isElement : Content → Bool
  | .element _ => true
  | .simple _ => false

theorem isElement_content (stop t : Token) (ts : List Token) :
    (content stop (t :: ts)).value.isElement = (t.kind == .greaterThan) := by
  cases kind : t.kind <;> simp only [content, kind] <;> rfl

theorem isBlank_content_of_comment {stop t : Token} (kind : t.kind = .comment) (ts : List Token) :
    (content stop (t :: ts)).value.isBlank = t.source.isEmpty := by
  simp only [content, kind]
  rfl

/-- What opens with a sigil is not blank, not even if the sigil opens no line. -/
theorem isBlank_content {stop t : Token} (other : t.kind ≠ .comment) (text : t.source ≠ [])
    (ts : List Token) : (content stop (t :: ts)).value.isBlank = false := by
  have kept : (literal .empty stop (t :: ts)).value.source.isEmpty = false := by
    rw [literal_of_content rfl]
    simp [Leaf.literal, text]
  cases kind : t.kind <;> simp only [content, kind]
  case comment => exact absurd kind other
  all_goals first | rfl | exact kept

end Reader

theorem content_ofTokenLine (l : TokenLine) :
    (Row.ofTokenLine l).isBlank = (Reader.content l.stop l.body).value.isBlank
      ∧ (Row.ofTokenLine l).isElement = (Reader.content l.stop l.body).value.isElement := by
  rw [Row.ofTokenLine]
  cases (Reader.content l.stop l.body).value <;> exact ⟨rfl, rfl⟩

section

variable {l : TokenLine} {f : Frame}

theorem content_of_simple {body : Body} (row : Row.ofTokenLine l = .simple f body) :
    (Reader.content l.stop l.body).value = .simple body := by
  rw [Row.ofTokenLine] at row
  cases value : (Reader.content l.stop l.body).value with
  | element tag => rw [value] at row; exact Row.noConfusion row
  | simple body => rw [value] at row; exact congrArg _ (Row.simple.inj row).2

theorem content_of_element {t : Tag} (row : Row.ofTokenLine l = .element f t) :
    (Reader.content l.stop l.body).value = .element t := by
  rw [Row.ofTokenLine] at row
  cases value : (Reader.content l.stop l.body).value with
  | element tag => rw [value] at row; exact congrArg _ (Row.element.inj row).2
  | simple body => rw [value] at row; exact Row.noConfusion row

end

theorem sigilKind?_greaterThan {c : Char} {k : Kind} (h : sigilKind? c = some k) :
    (k == .greaterThan) = (c == '>') := by
  have all : ∀ s ∈ sigils, (s.2 == .greaterThan) = (s.1 == '>') := by decide
  exact all (c, k) (mem_sigils h)

/-- The first character of its content says whether a line declares an element, and whether there
is anything on it. -/
theorem Opens.shape {cs : List Char} {l : TokenLine} (h : Opens cs l.body) :
    (Row.ofTokenLine l).isElement = (cs.head? == some '>')
      ∧ (Row.ofTokenLine l).isBlank = cs.head?.all isLineBreak := by
  rw [(content_ofTokenLine l).1, (content_ofTokenLine l).2]
  generalize l.body = body at h ⊢
  cases h with
  | nothing => exact ⟨rfl, rfl⟩
  | @comment c cs t kind plain source =>
    have other : (c == '>') = false := by
      rw [beq_eq_false_iff_ne]
      rintro rfl
      exact absurd plain (by decide)
    rw [Reader.isElement_content, Reader.isBlank_content_of_comment kind, kind, source]
    refine ⟨by simp [other], ?_⟩
    cases brk : isLineBreak c <;> simp [brk]
  | @sigil c cs t ts kind source =>
    have sig := sigil_is_content kind
    rw [Reader.isElement_content, Reader.isBlank_content sig.2.2.2.2.2.1 (by simp [source]),
      sigilKind?_greaterThan kind]
    simp [sig.1]

/-- A line has nothing but space on it if its content starts with a break, or is nothing. -/
theorem Opens.all_isSpace {cs ending : List Char} {body : List Token} (h : Opens cs body)
    (solid : ∀ c ∈ cs.head?, isInlineSpace c = false) (space : ∀ c ∈ ending, isSpace c = true) :
    (body.flatMap Token.source ++ ending).all isSpace = cs.head?.all isLineBreak := by
  have closing : ending.all isSpace = true := List.all_eq_true.mpr space
  cases h with
  | nothing => exact closing
  | @comment c cs t kind plain source =>
    have first : isSpace c = isLineBreak c := by rw [isSpace, solid c rfl, Bool.false_or]
    cases brk : isLineBreak c <;> simp [source, first, brk, closing]
  | @sigil c cs t ts kind source =>
    have first : isSpace c = false := by
      rw [isSpace, solid c rfl, (sigil_is_content kind).1]
      rfl
    simp [source, first, (sigil_is_content kind).1]

namespace Scanner

/-- What is left of a text behind the space it starts with does not start with space. -/
theorem solid_dropWhile (cs : List Char) :
    ∀ c ∈ (cs.dropWhile isInlineSpace).head?, isInlineSpace c = false := by
  intro c hc
  have head := List.head?_dropWhile_not isInlineSpace cs
  rw [Option.mem_def] at hc
  rw [hc] at head
  simpa using head

theorem takeWhile_append_solid {space more : List Char}
    (inline : ∀ c ∈ space, isInlineSpace c = true)
    (solid : ∀ c ∈ more.head?, isInlineSpace c = false) :
    (space ++ more).takeWhile isInlineSpace = space
      ∧ (space ++ more).dropWhile isInlineSpace = more := by
  rw [List.takeWhile_append_of_pos inline, List.dropWhile_append_of_pos inline]
  cases more with
  | nil => simp
  | cons c cs =>
    have : isInlineSpace c = false := solid c rfl
    simp [this]

namespace ReadsLine

variable {p e : Scanner} {l : TokenLine}

theorem opensBody (h : p.ReadsLine l e) : Opens (p.rest.dropWhile isInlineSpace) l.body :=
  opens_body h.opens h.body h.inner (by rw [h.stop]; exact h.ends)

theorem source_indent (h : p.ReadsLine l e) :
    l.indent.toList.flatMap Token.source = p.rest.takeWhile isInlineSpace := by
  rw [h.indent, h.opens.indent?_scan]
  split
  · next none => rw [none]; rfl
  · simp [Token.source]

theorem level_ofTokenLine (h : p.ReadsLine l e) :
    (Row.ofTokenLine l).level = unitLength (p.rest.takeWhile isInlineSpace) := by
  rw [Row.level, frame_ofTokenLine, Frame.level, h.indent, h.opens.indent?_scan]
  split
  · next none => rw [none]; rfl
  · exact Nat.add_sub_cancel_left ..

/-- The token that ends a line has only space in it. -/
theorem isSpace_stop (h : p.ReadsLine l e) : ∀ c ∈ l.stop.source, isSpace c = true := by
  obtain ⟨space, ending⟩ := h.stop_cases
  intro c hc
  rw [isSpace, Bool.or_eq_true]
  rcases List.mem_append.mp hc with hc | hc
  · exact .inl (space c hc)
  · rcases ending with ⟨-, brk⟩ | ⟨-, nothing, -⟩
    · exact .inr (brk.isLineBreak c hc)
    · rw [nothing] at hc
      exact absurd hc (by simp)

/-- Space aside, a line starts like the text that it starts. -/
theorem head?_content (h : p.ReadsLine l e) :
    (l.body.flatMap Token.source ++ l.stop.source).head?
      = (p.rest.dropWhile isInlineSpace).head? := by
  have split : p.rest.takeWhile isInlineSpace
      ++ (l.body.flatMap Token.source ++ l.stop.source ++ e.rest) = p.rest := by
    have := h.rest
    rw [TokenLine.source, TokenLine.front, List.flatMap_append, h.source_indent] at this
    simpa only [List.append_assoc] using this
  have content : l.body.flatMap Token.source ++ l.stop.source ++ e.rest
      = p.rest.dropWhile isInlineSpace :=
    List.append_cancel_left (split.trans List.takeWhile_append_dropWhile.symm)
  rw [← content]
  cases line : l.body.flatMap Token.source ++ l.stop.source with
  | cons c cs => rfl
  | nil =>
    have ending : l.stop.lexeme = [] := by
      have := (List.append_eq_nil_iff.mp line).2
      exact (List.append_eq_nil_iff.mp this).2
    obtain ⟨-, ⟨-, brk⟩ | ⟨-, -, rest⟩⟩ := h.stop_cases
    · rw [ending] at brk
      cases brk
    · rw [rest]
      rfl

/-- What was read of a line is what its characters say. -/
theorem shape (h : p.ReadsLine l e) :
    (Row.ofTokenLine l).shape = .ofLine p.token.stop.line l.source := by
  have solid := solid_dropWhile p.rest
  rw [← h.head?_content] at solid
  obtain ⟨take, drop⟩ := takeWhile_append_solid (inlineSpace_takeWhile p.rest) solid
  have line : l.source = p.rest.takeWhile isInlineSpace
      ++ (l.body.flatMap Token.source ++ l.stop.source) := by
    rw [TokenLine.source, TokenLine.front, List.flatMap_append, h.source_indent, List.append_assoc]
  obtain ⟨element, blank⟩ := h.opensBody.shape
  have space : (p.rest.takeWhile isInlineSpace).all isSpace = true :=
    List.all_eq_true.mpr fun c hc => by rw [isSpace, inlineSpace_takeWhile _ c hc]; rfl
  have rest_blank := h.opensBody.all_isSpace (solid_dropWhile p.rest) h.isSpace_stop
  rw [Row.shape, LineShape.ofLine, line, take, drop, h.level_ofTokenLine, element, blank,
    List.all_append, space, rest_blank, Bool.true_and, h.head?_content, frame_ofTokenLine, h.start]

/-- What is left of a line starts on the line. -/
theorem line_nextStart {before rest : List Token} (h : p.ReadsLine l e)
    (split : l.front = before ++ rest) : (nextStart l.stop rest).line = p.token.stop.line := by
  have start := InLine.nextStart_append (split ▸ h.inLine)
  rw [← split, ← l.start_eq_nextStart, h.start] at start
  exact (congrArg Location.line start).symm

/-- All tokens of a line start on it, the one that ends it included. -/
theorem line_of_mem (h : p.ReadsLine l e) :
    ∀ t ∈ l.front ++ [l.stop], t.start.line = p.token.stop.line := by
  intro t ht
  rcases List.mem_append.mp ht with ht | ht
  · obtain ⟨before, after, split⟩ := List.mem_iff_append.mp ht
    exact h.line_nextStart split
  · rw [List.mem_singleton.mp ht]
    exact h.line_nextStart (List.append_nil _).symm

/-- Only a line break leads to another line, and then it is the next one. -/
theorem line_stop (h : p.ReadsLine l e) (brk : e.token.kind = .lineBreak) :
    e.token.stop.line = p.token.stop.line + 1 := by
  have start := h.line_of_mem l.stop (List.mem_append_right _ (List.mem_singleton_self _))
  rw [Token.stop, if_pos brk, ← start, h.stop]
  rfl

end ReadsLine

/-- Every line is read from a scanner in front of it and of the lines behind, which stepping comes
to. It stands as many lines below the first scanner as there are lines in between. -/
theorem Reads.line_at {p f : Scanner} {ls : List TokenLine} (h : p.Reads ls f) {k : Nat}
    {l : TokenLine} (at_k : ls[k]? = some l) :
    ∃ (q e : Scanner) (ts : List Token), q.ReadsLine l e ∧ p.Passes ts q ∧ q.Reads (ls.drop k) f
      ∧ q.token.stop.line = p.token.stop.line + k := by
  induction h generalizing k with
  | done => exact absurd at_k (by simp)
  | @line p e f l' ls first later ih =>
    cases k with
    | zero =>
      obtain rfl : l' = l := by simpa using at_k
      exact ⟨p, e, [], first, rfl, .line first later, rfl⟩
    | succ k =>
      obtain ⟨q, e', ts, line, passes, rest, number⟩ := ih (by simpa using at_k)
      have passed : p.Passes (p.token :: l'.front ++ ts) q :=
        ⟨rfl, passes_append.mpr ⟨e, first.passes, passes⟩⟩
      refine ⟨q, e', _, line, passed, rest, ?_⟩
      obtain ⟨-, ⟨brk, -⟩ | ⟨atEnd, -, -⟩⟩ := first.stop_cases
      · rw [number, first.line_stop (first.stop ▸ brk), Nat.add_assoc, Nat.add_comm 1]
      · rw [later.of_endOfText (first.stop ▸ atEnd)] at at_k
        exact absurd at_k (by simp)

/-- Every line has the number of its place. -/
theorem Reads.shapes {p f : Scanner} {ls : List TokenLine} (h : p.Reads ls f) :
    ls.map (fun l => (Row.ofTokenLine l).shape)
      = (OffsideMarkup.physicalLines p.rest).mapIdx
          fun k line => .ofLine (p.token.stop.line + k) line := by
  rw [h.physicalLines]
  induction h with
  | done => rfl
  | @line p e f l ls first later ih =>
    rw [List.map_cons, List.map_cons, List.mapIdx_cons, first.shape, ih]
    congr 1
    obtain ⟨-, ⟨brk, -⟩ | ⟨atEnd, -, -⟩⟩ := first.stop_cases
    · rw [← first.stop] at brk
      have next := first.line_stop brk
      congr 1
      funext k line
      rw [next, Nat.add_assoc, Nat.add_comm 1 k]
    · rw [← first.stop] at atEnd
      rw [later.of_endOfText atEnd]
      rfl

end Scanner

/-- The rows of a text have the shapes of its lines. -/
theorem shapes_ofText (text : List Char) : (Row.ofText text).map Row.shape = lineShapes text := by
  obtain ⟨f, reads, -⟩ := Scanner.reads_ofText text
  have here : (Scanner.start text).token.stop.line = 0 := rfl
  have shapes := reads.shapes
  rw [here] at shapes
  simp only [Nat.zero_add] at shapes
  rw [Row.ofText, List.map_map]
  exact shapes

/-! ## 4. Numbered rows -/

/-- Of rows of items that are numbered row by row, those with one number are one row. -/
theorem filter_flatMap_of_number {α β : Type} {row : α → List β} {number : β → Nat} {xs : List α}
    {base k n : Nat} (numbered : ∀ k x, xs[k]? = some x → ∀ b ∈ row x, number b = base + k)
    (place : n = base + k) :
    (xs.flatMap row).filter (number · == n) = (xs[k]?.map row).getD [] := by
  induction xs generalizing base k with
  | nil => rfl
  | cons x xs ih =>
    have first : ∀ b ∈ row x, number b = base := numbered 0 x rfl
    have later : ∀ k y, xs[k]? = some y → ∀ b ∈ row y, number b = base + 1 + k := by
      intro k y hy b hb
      rw [numbered (k + 1) y hy b hb, Nat.add_assoc, Nat.add_comm 1]
    rw [List.flatMap_cons, List.filter_append]
    cases k with
    | zero =>
      have none : (xs.flatMap row).filter (number · == n) = [] := by
        refine List.filter_eq_nil_iff.mpr fun b hb => ?_
        obtain ⟨y, hy, hb⟩ := List.mem_flatMap.mp hb
        obtain ⟨k, at_k⟩ := List.mem_iff_getElem?.mp hy
        rw [later k y at_k b hb, beq_iff_eq]
        omega
      rw [none, List.append_nil, List.filter_eq_self.mpr fun b hb => by simp [first b hb, place]]
      rfl
    | succ k =>
      have none : (row x).filter (number · == n) = [] := by
        refine List.filter_eq_nil_iff.mpr fun b hb => ?_
        rw [first b hb, beq_iff_eq]
        omega
      rw [none, List.nil_append]
      exact ih later (by omega)

end OffsideMarkup
