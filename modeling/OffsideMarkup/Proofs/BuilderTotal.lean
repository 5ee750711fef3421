/-
OffsideMarkup.Proofs.BuilderTotal — the builder comes to an end, and in order.

The machine reads lines; the rows of a text are nested. Both are brought together along the lines
that the scanner meets (`Scanner.Reads`):

* `finds_line` — behind the indentation the machine finds what the readers find;
* `stores_line` — with the indentation and what was found, a line is built and nothing else;
* `BuildsLine`, `BuildsBlock` — the same for a line with the lines nested in it, and for the lines
  of a block, from in front of one line to in front of another;
* `buildsBlock_of_reads` — every block is built, by induction over the lines ahead.

A line takes at least one character off the text (`BuildsLine.further`), so a block gets on. The
warnings of the offside rule need the tag of the element that owns the block; its index is handed
down, and stays good (`Owns`).

`build_total` is the result for a whole text: the machine ends without a violation on the end of the
text, and what it has stored and reported is what the readers make of the file. It has two side
conditions. A text must be short enough for its coordinates to be words, and the nodes of its tree
must not be more than there are indices. The second does not follow from the first: `build_of_full`
says what becomes of a text with one node too many, and there are such texts (`build_feeds`).
-/
import OffsideMarkup.Proofs.BlockLines
import OffsideMarkup.Proofs.BuilderParts
import OffsideMarkup.Proofs.LineFeeds
import OffsideMarkup.Proofs.LookAhead
import OffsideMarkup.Proofs.Lossless

namespace OffsideMarkup

/-! ## 1. In front of a line -/

namespace Scanner

variable {p e f : Scanner} {l : TokenLine} {ls : List TokenLine}

/-- Only of a comment it can be that a token in the content of a line has no characters. -/
theorem ReadsLine.solid_body (h : p.ReadsLine l e)
    (comment : ∀ t ∈ l.body.head?, t.kind ≠ .comment) : ∀ t ∈ l.body, t.source ≠ [] := by
  have opens := h.opensBody
  have body := h.body
  have inner := h.inner
  generalize p.rest.dropWhile isInlineSpace = cs at opens
  generalize l.body = given at opens body inner comment ⊢
  cases opens with
  | nothing => simp
  | comment kind => exact absurd kind (comment _ rfl)
  | @sigil c cs t ts kind source =>
    obtain ⟨rfl, passes⟩ := body
    have brk := (sigil_is_content kind).2.2.2.1
    have first : p.scan.pastIndent.token.source ≠ [] := by simp [source]
    have later := opensLine_of_sigil kind
    exact List.forall_mem_cons.mpr ⟨first, passes.solid
      (fun t ht => inner t (List.mem_cons_of_mem _ ht)) later (column_stop_pos brk first)⟩

/-- In front of a line the scanner is not at the end of one. -/
theorem ReadsLine.endsLine_scan (h : p.ReadsLine l e) : p.scan.token.kind.endsLine = false := by
  have content := h.content
  cases kind : p.scan.token.kind with
  | lineBreak =>
    have later := (scan_of_lineBreak kind).1
    rw [h.opens.kind_opensLine] at later
    exact absurd later (by decide)
  | endOfText => exact absurd kind content
  | _ => rfl

/-- In front of the lines of a text, the end of a line is the end of the text. -/
theorem Reads.isEmpty (h : p.Reads ls f) : p.scan.token.kind.endsLine = ls.isEmpty := by
  cases h with
  | done atEnd => rw [atEnd]; rfl
  | line first => exact first.endsLine_scan

end Scanner

namespace Build

variable {b b' : Builder} {p e q f : Scanner} {l : TokenLine} {ls : List TokenLine}
  {owner : Option Nat} {tag : Option Tag}

/-! ## 2. The content of a line -/

theorem stands_body (h : p.ReadsLine l e) (here : b.scanner = p.scan.pastIndent)
    (within : b.scanner.Within) (comment : ∀ t ∈ l.body.head?, t.kind ≠ .comment) :
    Stands b e l.body :=
  ⟨here ▸ h.body, h.inner, h.solid_body comment, h.stop ▸ h.ends, within⟩

/-- The machine finds in a line what the readers do. -/
theorem finds_line (h : p.ReadsLine l e) (here : b.scanner = p.scan.pastIndent)
    (within : b.scanner.Within) (indent : Option Nat) :
    FindsContent b e indent (Reader.content l.stop l.body).value
      (Reader.content l.stop l.body).findings := by
  have stands := stands_body h here within
  have alone := h.opensBody.comment_alone
  have body := here ▸ h.body
  have nothing := h.kind_of_nothing
  have ends : e.token.kind.endsLine = true := h.stop ▸ h.ends
  rw [← h.stop] at nothing ⊢
  generalize l.body = given at stands alone body nothing ⊢
  cases given with
  | nil =>
    have st := stands (by simp)
    have atEnd : b.scanner.token.kind = .endOfText := by rw [st.token]; exact nothing rfl
    exact ⟨by rw [atEnd]; decide,
      finds_simple atEnd (finds_closeLine (Grown.refl b) st .commentLine indent) rfl⟩
  | cons t ts =>
    by_cases comment : t.kind = .comment
    · obtain rfl : ts = [] := alone t ts rfl comment
      obtain ⟨token, behind⟩ := body
      have kind : b.scanner.token.kind = .comment := token ▸ comment
      have read : Reader.content e.token [t]
          = ⟨.simple (.comment (some (.ofToken t))), [], [], List.suffix_cons t []⟩ := by
        simp only [Reader.content, comment]
        rfl
      rw [read]
      exact ⟨by rw [kind]; decide,
        finds_simple kind (finds_comment within token behind ends indent) rfl⟩
    · exact finds_content (stands (by simpa using comment)) comment indent

/-! ## 3. The indentation of a line -/

/-- The element that owns a block, by the index of its tag. -/
def Owns (b : Builder) : Option Nat → Option Tag → Prop
  | none, none => True
  | some id, some tag => ∃ e, b.nodes.get? id = some e ∧ e.extent = tag.node.label.extent
  | _, _ => False

theorem Owns.grown {us : List Node} {fs : List Diagnostic} (h : Owns b owner tag)
    (grown : Grown b b' us fs) : Owns b' owner tag := by
  cases owner with
  | none => cases tag <;> exact h
  | some id =>
    cases tag with
    | none => exact h
    | some tag =>
      obtain ⟨e, found, extent⟩ := h
      exact ⟨e, grown.get? found, extent⟩

theorem builds_atBlankLine (b : Builder) :
    Builds atBlankLine b b.scanner.token.opensBlank b := by
  refine (builds_isAt .endOfText b).bind ?_
  rw [Token.opensBlank]
  cases b.scanner.token.kind == .endOfText with
  | true => exact builds_pure true b
  | false => exact builds_atEmptyComment b

/-- A line that is indented further than its block gets a warning, and no other line does. -/
theorem builds_checkIndentation (level : Nat) {id : Nat} {stored : Entry} {m : Line}
    {indent : Leaf} (found : b.nodes.get? id = some stored) (is : m.frame.indent = some indent)
    (extent : stored.extent = indent.extent) (length : stored.length = m.level)
    (blank : b.scanner.token.opensBlank = m.isBlank) (owns : Owns b owner tag) :
    Builds (checkIndentation id stored.length level owner) b ()
      { b with findings := b.findings ++ m.misplaced level tag } := by
  have atBlank := builds_atBlankLine b
  rw [blank] at atBlank
  refine atBlank.bind ?_
  rw [length, Line.misplaced, is]
  dsimp only
  by_cases far : level < m.level ∧ ¬m.isBlank
  · rw [if_pos (by simpa using far), if_pos far]
    refine (builds_entry found).bind ?_
    rw [extent, length]
    cases owner with
    | none =>
      cases tag with
      | none => exact builds_modify _ b
      | some tag => exact owns.elim
    | some id =>
      cases tag with
      | none => exact owns.elim
      | some tag =>
        obtain ⟨e, owned, place⟩ := owns
        refine (builds_entry owned).bind ?_
        rw [place]
        exact builds_modify _ b
  · rw [if_neg (by simpa using far), if_neg far, List.append_nil]
    exact builds_pure () b

theorem indent_of_row {m : Line} (same : m.row = Row.ofTokenLine l) :
    m.frame.indent = l.indent.map .ofToken := by
  rw [← frame_row, same, frame_ofTokenLine]

/-- The indentation becomes a leaf, and the width of that leaf is the level of the line. -/
theorem stores_lineStart (h : p.ReadsLine l e) (here : b.scanner = p.scan)
    (within : b.scanner.Within) (owns : Owns b owner tag) {m : Line}
    (same : m.row = Row.ofTokenLine l) (level : Nat) :
    ∃ b', Stores (lineStart level owner) b
        (l.indent.map fun t => Node.rootAt b.nodes.size ((Leaf.ofToken t).node .part), m.level) b'
      ∧ b'.scanner = p.scan.pastIndent
      ∧ Grown b b' (m.frame.indent.toList.map (·.node .part)) (m.misplaced level tag) := by
  have blank : m.isBlank = (Row.ofTokenLine l).isBlank := by rw [← isBlank_row, same]
  have indent := indent_of_row same
  have is := h.indent
  rw [Scanner.indent?, ← here] at is
  rw [h.isBlank] at blank
  by_cases kind : b.scanner.token.kind = .indentation
  · rw [if_pos kind] at is
    rw [is] at indent ⊢
    obtain ⟨b₁, built, moved, grown⟩ := stores_token within .part
    have past : b₁.scanner = p.scan.pastIndent := by
      rw [moved, here, Scanner.pastIndent, if_pos (here ▸ kind)]
    have stored := grown.get?_root
    have width : m.level = (Leaf.ofToken b.scanner.token).extent.length := by
      rw [Line.level, Frame.level, indent]
      rfl
    have eaten := stores_eat_some (beq_iff_eq.mpr kind) built
    have checked := builds_checkIndentation level stored indent rfl width.symm
      (past ▸ blank.symm) (owns.grown grown)
    have findings := grown.trans (Grown.reported b₁ (m.misplaced level tag))
    rw [indent, width]
    exact ⟨_, eaten.bind ((builds_entry stored).bind_stores rfl
      (checked.bind_stores rfl (stores_pure _ _))), past, findings⟩
  · rw [if_neg kind] at is
    rw [is] at indent ⊢
    have past : b.scanner = p.scan.pastIndent := by
      rw [here, Scanner.pastIndent, if_neg (here ▸ kind)]
    have width : m.level = 0 := by rw [Line.level, Frame.level, indent]; rfl
    have fine : m.misplaced level tag = [] := by rw [Line.misplaced, indent]; rfl
    rw [fine, indent, width]
    have nothing := builds_eat_none (b := b) (beq_eq_false_iff_ne.mpr kind)
    exact ⟨b, nothing.bind_stores rfl (stores_pure _ b), past, Grown.refl b⟩

/-! ## 4. Lines -/

/-- From in front of one line to in front of another, the machine has built these lines, with these
findings. -/
structure Advances (b b' : Builder) (q : Scanner) (lines : List Line)
    (findings : List Diagnostic) : Prop where
  there : b'.scanner = q.scan
  within : b'.scanner.Within
  grown : Grown b b' (Line.nodesOf lines) findings

/-- Nodes that fill a stretch from the start of a line make up a node. -/
theorem stores_finish_line {nodes : List Node} {fs : List Diagnostic} {cs : List Char}
    (here : b.scanner = p.scan) (there : b'.scanner = q.scan) (grown : Grown b b' nodes fs)
    (fill : Node.Fill p.token.stop q.token.stop cs nodes) (kind : Kind) (level : Option Nat) :
    ∃ b'', Stores (finish b.scanner.token.start kind (Node.roots b.nodes.size nodes) false level) b'
        (Node.rootAt b.nodes.size (.compose kind p.token.stop nodes level)) b''
      ∧ b''.scanner = q.scan ∧ Grown b b'' [.compose kind p.token.stop nodes level] fs := by
  have sound := (fill.compose kind level).sound _ List.mem_cons_self
  have extent := Node.extent_compose fill.tile kind level
  have stop : b'.scanner.token.start = q.token.stop := by rw [there, Scanner.start_scan]
  have start : b.scanner.token.start = p.token.stop := by rw [here, Scanner.start_scan]
  obtain ⟨b'', finished, same, grown'⟩ := stores_finish grown sound
    (stop.trans (congrArg Extent.stop extent).symm)
  rw [start]
  exact ⟨b'', finished, same.trans there, grown'⟩

/-- What the machine finds behind the indentation of a line makes up the line. -/
theorem stores_line {m : Line} {kind : Kind} {nodes : List Node} {gs : List Diagnostic}
    {cs : List Char} (h : p.ReadsLine l e) (here : b.scanner = p.scan)
    (within : b.scanner.Within) (owns : Owns b owner tag) (same : m.row = Row.ofTokenLine l)
    (node : m.node = .compose kind p.token.stop
      (m.frame.indent.toList.map (·.node .part) ++ nodes) (some m.level))
    (fill : Node.Fill p.token.stop q.token.stop cs
      (m.frame.indent.toList.map (·.node .part) ++ nodes))
    (found : ∀ b₁ indent, b₁.scanner = p.scan.pastIndent → b₁.scanner.Within →
      ∃ b₂, Stores (lineContent block indent m.level) b₁
          (kind, indent.toList ++ Node.roots b₁.nodes.size nodes) b₂
        ∧ b₂.scanner = q.scan ∧ b₂.scanner.Within ∧ Grown b₁ b₂ nodes gs) (level : Nat) :
    ∃ b', Stores (line block level owner) b (some (Node.rootAt b.nodes.size m.node)) b'
      ∧ Advances b b' q [m] (m.misplaced level tag ++ gs) := by
  obtain ⟨b₁, started, past, grown₁⟩ := stores_lineStart h here within owns same level
  have within₁ : b₁.scanner.Within := past ▸ here ▸ within.pastIndent
  obtain ⟨b₂, content, moved, within₂, grown₂⟩ := found b₁ _ past within₁
  obtain ⟨b₃, finished, there, grown₃⟩ := stores_finish_line here moved (grown₁.trans grown₂) fill
    kind (some m.level)
  have indent :
      (l.indent.map fun t => Node.rootAt b.nodes.size ((Leaf.ofToken t).node .part)).toList
        = Node.roots b.nodes.size (m.frame.indent.toList.map (·.node .part)) := by
    rw [indent_of_row same]
    cases l.indent <;> rfl
  rw [grown₁.roots, ← indent] at finished
  rw [← node] at finished grown₃
  refine ⟨b₃, ?_, there, there ▸ moved ▸ within₂, grown₃⟩
  rw [line]
  refine (builds_isAt _ b).bind_stores rfl ?_
  rw [here, beq_eq_false_iff_ne.mpr h.content, if_neg Bool.false_ne_true]
  exact (builds_here b).bind_stores rfl (started.bind (content.bind finished.map))

/-- The frame of a line, as it was read. -/
theorem frame_of_row {r : Row} (row : Row.ofTokenLine l = r) :
    r.frame = ⟨l.start, l.indent.map .ofToken, .ofToken l.stop,
      (Reader.content l.stop l.body).findings⟩ := by rw [← row, frame_ofTokenLine]

theorem start_of_row (h : p.ReadsLine l e) {r : Row} (row : Row.ofTokenLine l = r) :
    r.frame.start = p.token.stop := by
  rw [frame_of_row row]
  exact h.start

/-- Around the nodes of a line stand its indentation and the token that ends it. -/
theorem around_of_row (h : p.ReadsLine l e) {r : Row} {f : Frame} (row : Row.ofTokenLine l = r)
    (same : r.frame = f) (nodes : List Node) :
    f.around nodes = f.indent.toList.map (·.node .part)
      ++ (nodes ++ [(Leaf.ofToken e.token).node .part]) := by
  rw [Frame.around, List.append_assoc, ← same, frame_of_row row, h.stop]

/-- From in front of one line to in front of another, whatever block the line is in, the machine
builds a line that fills the text between. -/
structure BuildsLine (p q : Scanner) (m : Line) : Prop where
  fill : ∃ cs, cs ≠ [] ∧ Node.Fill p.token.stop q.token.stop cs [m.node]
  run (level : Nat) (b : Builder) (owner : Option Nat) (tag : Option Tag)
    (here : b.scanner = p.scan) (within : b.scanner.Within) (owns : Owns b owner tag) :
    ∃ b', Stores (line block level owner) b (some (Node.rootAt b.nodes.size m.node)) b'
      ∧ Advances b b' q [m] (m.diagnostics level tag)

/-- The same for the lines of a block. -/
structure BuildsBlock (level : Nat) (p q : Scanner) (lines : List Line) : Prop where
  fill : ∃ cs, Node.Fill p.token.stop q.token.stop cs (Line.nodesOf lines)
  run (b : Builder) (owner : Option Nat) (tag : Option Tag) (here : b.scanner = p.scan)
    (within : b.scanner.Within) (owns : Owns b owner tag) :
    ∃ b', Stores (block level owner) b (Node.roots b.nodes.size (Line.nodesOf lines)) b'
      ∧ Advances b b' q lines (Line.diagnosticsOf level tag lines)

theorem buildsLine_simple (h : p.ReadsLine l e) {f : Frame} {body : Body}
    (row : Row.ofTokenLine l = .simple f body) : BuildsLine p e (.simple f body) := by
  have frame : f = _ := frame_of_row row
  have start : f.start = p.token.stop := start_of_row h row
  have parts := around_of_row (f := f) h row rfl body.nodes
  have node : (Line.simple f body).node = .compose body.kind p.token.stop
      (f.indent.toList.map (·.node .part) ++ (body.nodes ++ [(Leaf.ofToken e.token).node .part]))
      (some f.level) := by rw [Line.node, parts, start]
  have fill := fill_row h
  rw [row, Row.nodes, parts] at fill
  refine ⟨⟨_, h.source_ne_nil, node ▸ fill.compose body.kind (some f.level)⟩, ?_⟩
  intro level b owner tag here within owns
  refine stores_line (m := .simple f body) h here within owns row.symm node fill ?_ level
  intro b₁ indent past within₁
  have content := finds_line h past within₁ indent
  rw [content_of_simple row] at content
  obtain ⟨other, b₂, found, moved, grown⟩ := content
  have within₂ : b₂.scanner.Within := by
    rw [moved]
    exact ((here ▸ within).passes h.passes).scan
  refine ⟨b₂, ?_, moved, within₂, grown.of_findings (by rw [frame])⟩
  rw [lineContent]
  refine (builds_isAt _ b₁).bind_stores rfl ?_
  rw [beq_eq_false_iff_ne.mpr other]
  exact found

/-- The line of an element with the block under it, if the machine builds that block. -/
theorem buildsLine_element (h : p.ReadsLine l e) {f : Frame} {t : Tag} {children : List Line}
    {cs : List Char} (row : Row.ofTokenLine l = .element f t)
    (inner : Node.Fill e.token.stop q.token.stop cs (Line.nodesOf children))
    (under : ∀ b₁ id, b₁.scanner = e.scan → b₁.scanner.Within → Owns b₁ (some id) (some t) →
      ∃ b₂, Stores (blockUnder block f.level id) b₁
          (Node.roots b₁.nodes.size (Line.nodesOf children)) b₂
        ∧ Advances b₁ b₂ q children
            (Line.diagnosticsOf (Line.blockLevel children) (some t) children)) :
    BuildsLine p q (.element f t children) := by
  have frame : f = _ := frame_of_row row
  have start : f.start = p.token.stop := start_of_row h row
  have parts := around_of_row (f := f) h row rfl [t.node]
  have node : (Line.element f t children).node = .compose .element p.token.stop
      (f.indent.toList.map (·.node .part) ++ ([t.node] ++ [(Leaf.ofToken e.token).node .part]
        ++ Line.nodesOf children)) (some f.level) := by
    rw [Line.node, parts, start, List.append_assoc]
  have own := fill_row h
  rw [row, Row.nodes, parts] at own
  have fill := own.append inner
  rw [List.append_assoc] at fill
  have solid : l.source ++ cs ≠ [] := List.append_ne_nil_of_left_ne_nil h.source_ne_nil cs
  refine ⟨⟨_, solid, node ▸ fill.compose .element (some f.level)⟩, ?_⟩
  intro level b owner tag here within owns
  rw [Line.diagnostics, List.append_assoc]
  refine stores_line (m := .element f t children) h here within owns row.symm node fill ?_ level
  intro b₁ indent past within₁
  have content := finds_line h past within₁ indent
  rw [content_of_element row] at content
  obtain ⟨is, b₂, built, st, grown₂⟩ := content
  obtain ⟨b₃, ending, moved, grown₃⟩ := stores_lineEnd st
  have within₃ : b₃.scanner.Within := by
    have last : b₂.scanner = e := st.passes
    rw [moved, ← last]
    exact st.within.scan
  have stored : Owns b₂ (some (Node.rootAt b₁.nodes.size t.node)) (some t) :=
    ⟨_, grown₂.get?_root, rfl⟩
  have grown := grown₂.trans grown₃
  obtain ⟨b₄, children, there, within₄, grown₄⟩ := under b₃ _ moved within₃ (stored.grown grown₃)
  refine ⟨b₄, ?_, there, within₄, (grown.trans grown₄).of_findings (by rw [frame, List.append_nil])⟩
  rw [lineContent]
  refine (builds_isAt _ b₁).bind_stores rfl ?_
  rw [beq_iff_eq.mpr is, if_pos rfl, element, grown.roots, grown₂.roots, ← List.append_assoc,
    ← List.append_assoc]
  exact built.bind (ending.bind children.map)

/-! ## 5. Blocks -/

theorem builds_blockGoesOn (within : b.scanner.Within) (level : Nat) :
    Builds (blockGoesOn level) b
      (b.scanner.token.kind != .endOfText && decide (level ≤ b.scanner.indentAhead)) b := by
  refine (builds_isAt .endOfText b).bind ?_
  rw [bne]
  cases b.scanner.token.kind == .endOfText with
  | true => exact builds_pure false b
  | false => exact (builds_lookAhead within).map

theorem buildsBlock_nil {level : Nat}
    (halt : p.scan.token.kind = .endOfText ∨ p.scan.indentAhead < level) :
    BuildsBlock level p p [] := by
  refine ⟨⟨[], Node.Fill.nil _⟩, ?_⟩
  intro b owner tag here within owns
  refine ⟨b, ?_, here, within, Grown.refl b⟩
  have stop : (p.scan.token.kind != .endOfText && decide (level ≤ p.scan.indentAhead)) = false := by
    rcases halt with atEnd | outside
    · rw [atEnd]; rfl
    · rw [decide_eq_false (by omega), Bool.and_false]
  have goesOn := builds_blockGoesOn within level
  rw [here, stop] at goesOn
  rw [block_eq]
  exact goesOn.bind_stores rfl (stores_pure [] b)

/-- A line has characters, so behind it the machine stands further on. -/
theorem BuildsLine.further {m : Line} (h : BuildsLine p q m) :
    q.token.stop.offset ≠ p.token.stop.offset := by
  obtain ⟨cs, solid, fill⟩ := h.fill
  have length := (fill.tile.spans fun t ht => (fill.sound t ht).length).1
  rw [fill.source] at length
  cases cs with
  | nil => exact absurd rfl solid
  | cons c cs =>
    have := c.utf8Size_pos
    rw [byteLength_cons] at length
    dsimp only at length
    omega

theorem buildsBlock_cons {level : Nat} {m : Line} {ms : List Line}
    (more : p.scan.token.kind ≠ .endOfText) (go : level ≤ p.scan.indentAhead)
    (first : BuildsLine p e m) (later : BuildsBlock level e q ms) :
    BuildsBlock level p q (m :: ms) := by
  obtain ⟨cs, -, own⟩ := first.fill
  obtain ⟨ds, others⟩ := later.fill
  refine ⟨⟨_, own.append others⟩, ?_⟩
  intro b owner tag here within owns
  obtain ⟨b₁, built, there, within₁, grown₁⟩ := first.run level b owner tag here within owns
  obtain ⟨b₂, rest, there₂, within₂, grown₂⟩ := later.run b₁ owner tag there within₁
    (owns.grown grown₁)
  have further : b₁.scanner.token.start.offset ≠ b.scanner.token.start.offset := by
    rw [there, here, Scanner.start_scan, Scanner.start_scan]
    exact first.further
  have goesOn := builds_blockGoesOn within level
  rw [here, bne_iff_ne.mpr more, decide_eq_true go] at goesOn
  refine ⟨b₂, ?_, there₂, within₂, grown₁.trans grown₂⟩
  rw [block_eq]
  refine goesOn.bind_stores rfl ?_
  have ids := grown₁.roots_cons (Line.nodesOf ms)
  rw [Line.nodesOf, ids]
  exact (builds_here b).bind_stores rfl
    (built.bind ((builds_checked further).bind_stores rfl rest.map))

/-- An element under which the next line is indented further has that block. -/
theorem stores_blockUnder_open {width id : Nat} {t : Tag} {children : List Line}
    (inside : BuildsBlock e.scan.indentAhead e q children) (deeper : width < e.scan.indentAhead)
    (more : e.scan.token.kind.endsLine = false) (here : b.scanner = e.scan)
    (within : b.scanner.Within) (owns : Owns b (some id) (some t)) :
    ∃ b', Stores (blockUnder block width id) b (Node.roots b.nodes.size (Line.nodesOf children)) b'
      ∧ Advances b b' q children
          (Line.diagnosticsOf e.scan.indentAhead (some t) children) := by
  obtain ⟨b', built, rest⟩ := inside.run b (some id) (some t) here within owns
  refine ⟨b', ?_, rest⟩
  rw [blockUnder]
  refine (builds_isAtAny lineEnds b).bind_stores rfl ?_
  rw [lineEnds_has, here, more, if_neg Bool.false_ne_true]
  refine (builds_lookAhead within).bind_stores rfl ?_
  rw [here, if_pos deeper]
  exact built

theorem builds_blockUnder_none {width : Nat} (flat : ¬width < e.scan.indentAhead) (id : Nat)
    (here : b.scanner = e.scan) (within : b.scanner.Within) :
    Builds (blockUnder block width id) b [] b := by
  rw [blockUnder]
  refine (builds_isAtAny lineEnds b).bind ?_
  split
  · exact builds_pure [] b
  · refine (builds_lookAhead within).bind ?_
    rw [here, if_neg flat]
    exact builds_pure [] b

theorem buildsLine_open (h : p.ReadsLine l e) (later : e.Reads ls f) {frame : Frame} {t : Tag}
    (row : Row.ofTokenLine l = .element frame t)
    (deeper : frame.level < Row.ahead (ls.map Row.ofTokenLine))
    (inside : BuildsBlock (Row.ahead (ls.map Row.ofTokenLine)) e q
      (Line.blockOf (Row.ahead (ls.map Row.ofTokenLine)) (ls.map Row.ofTokenLine))) :
    BuildsLine p q (.element frame t
      (Line.blockOf (Row.ahead (ls.map Row.ofTokenLine)) (ls.map Row.ofTokenLine))) := by
  have next := later.indentAhead
  have more := later.isEmpty
  cases ls with
  | nil => exact absurd deeper (Nat.not_lt_zero _)
  | cons l ls =>
    obtain ⟨cs, fill⟩ := inside.fill
    refine buildsLine_element h row fill ?_
    intro b id here within owns
    rw [Line.blockLevel_blockOf]
    rw [← next] at deeper inside ⊢
    exact stores_blockUnder_open inside deeper more here within owns

theorem buildsLine_single (h : p.ReadsLine l e) (later : e.Reads ls f) {frame : Frame} {t : Tag}
    (row : Row.ofTokenLine l = .element frame t)
    (flat : ¬frame.level < Row.ahead (ls.map Row.ofTokenLine)) :
    BuildsLine p e (.element frame t []) := by
  rw [← later.indentAhead] at flat
  refine buildsLine_element h row (Node.Fill.nil _) ?_
  intro b id here within owns
  have nothing := builds_blockUnder_none flat id here within
  exact ⟨b, nothing.stores rfl, here, within, Grown.refl b⟩

/-- The machine builds the lines of a block and comes to stand behind them. The block of an element
is built first, and then the lines behind that; both are fewer lines than there were. -/
theorem buildsBlock_of_reads (reads : p.Reads ls f) (level : Nat) :
    ∃ q : Scanner, q.Reads (ls.drop (Row.blockLength level (ls.map Row.ofTokenLine))) f
      ∧ BuildsBlock level p q (Line.blockOf level (ls.map Row.ofTokenLine)) := by
  induction n : ls.length using Nat.strong_induction_on generalizing ls p level with
  | _ n ih =>
    subst n
    have look := reads.indentAhead
    cases reads with
    | done atEnd empty =>
      rw [List.map_nil, Line.blockOf_nil]
      exact ⟨p, .done atEnd empty, buildsBlock_nil (.inl atEnd)⟩
    | @line _ e _ l ls first later =>
      have behind := fun level => ih ls.length (by simp) later level rfl
      rw [List.map_cons] at look ⊢
      by_cases go : level ≤ Row.ahead (Row.ofTokenLine l :: ls.map Row.ofTokenLine)
      case neg =>
        rw [Row.blockLength_of_lt (by omega), Line.blockOf_of_lt (by omega)]
        exact ⟨p, .line first later, buildsBlock_nil (.inr (by omega))⟩
      case pos =>
        have goes : level ≤ p.scan.indentAhead := look ▸ go
        rw [Row.blockLength_of_le go, List.drop_succ_cons]
        cases row : Row.ofTokenLine l with
        | simple frame body =>
          rw [row] at go
          obtain ⟨q, rest, block⟩ := behind level
          rw [Line.blockOf_simple go]
          exact ⟨q, rest, buildsBlock_cons first.content goes (buildsLine_simple first row) block⟩
        | element frame tag =>
          have wide : level ≤ frame.level := by rw [row] at go; exact go
          by_cases deeper : frame.level < Row.ahead (ls.map Row.ofTokenLine)
          · have above := Nat.le_of_lt (Nat.lt_of_le_of_lt wide deeper)
            obtain ⟨m, rest, inside⟩ := behind (Row.ahead (ls.map Row.ofTokenLine))
            have fewer : (ls.drop (Row.blockLength (Row.ahead (ls.map Row.ofTokenLine))
                (ls.map Row.ofTokenLine))).length < (l :: ls).length := by
              rw [List.length_drop, List.length_cons]
              omega
            obtain ⟨q, rest, block⟩ := ih _ fewer rest level rfl
            rw [List.map_drop, List.drop_drop, ← Row.blockLength_inner above] at rest
            rw [List.map_drop] at block
            rw [Line.blockOf_open wide deeper]
            exact ⟨q, rest, buildsBlock_cons first.content goes
              (buildsLine_open first later row deeper inside) block⟩
          · obtain ⟨q, rest, block⟩ := behind level
            rw [Line.blockOf_single wide deeper]
            exact ⟨q, rest, buildsBlock_cons first.content goes
              (buildsLine_single first later row deeper) block⟩

end Build

/-! ## 6. Files -/

theorem Scanner.within_start {text : List Char} (short : byteLength text < wordBound) :
    (Scanner.start text).Within := by
  refine ⟨?_, Nat.le_refl _, Nat.le_refl _, Nat.le_refl _⟩
  rw [show (Scanner.start text).token.stop.offset = 0 from rfl, Nat.zero_add]
  exact short

/-- The tree of a file covers all of the text. -/
theorem span_root (variant : Variant) (text : List Char) :
    (SourceFile.ofText variant text).root.label.extent.span = ⟨0, byteLength text⟩ := by
  have start := (fill_root variant text).tile.1
  have length := (sound_root variant text).length.1
  rw [source_root, start] at length
  rw [Extent.span, length, start]
  exact congrArg (Span.mk 0) (Nat.zero_add _)

/-- The leaf at the end of a file is the token that the scanner stands on in the end. -/
theorem endOfFile_eq {text : List Char} {t : Token} (variant : Variant)
    (stop : (tokens text).getLast?.map Token.stop = some t.start) (kind : t.kind = .endOfText)
    (empty : t.source = []) : (SourceFile.ofText variant text).endOfFile = .ofToken t := by
  rw [SourceFile.ofText, stop, Leaf.ofToken, kind, empty]
  rfl

namespace Build

/-- In front of the first line the machine stores everything that is under the root of the file. All
that is left to do then is to store the root. -/
theorem run_sourceFile (variant : Variant) (text : List Char)
    (short : byteLength text < wordBound) :
    ∃ b, (b.scanner.token.kind = .endOfText ∧ b.scanner.rest = [])
      ∧ b.scanner.token.start = (SourceFile.ofText variant text).root.label.extent.stop
      ∧ Grown (.create text) b (SourceFile.ofText variant text).root.children
          (SourceFile.ofText variant text).diagnostics
      ∧ (b.nodes.size ≤ wordBound →
          (do bump; sourceFile : Build Nat) (.create text)
            = finish (SourceFile.ofText variant text).root.label.extent.start .file
                (Node.roots 0 (SourceFile.ofText variant text).root.children) false none b) := by
  obtain ⟨f, reads, stop⟩ := Scanner.reads_ofText text
  obtain ⟨q, rest, block⟩ := buildsBlock_of_reads reads 0
  rw [Row.blockLength_zero, List.length_map, List.drop_length] at rest
  rw [Line.blockOf_zero, ← Row.ofText] at block
  cases rest with
  | done atEnd empty =>
  have within := Scanner.within_start short
  have root : (SourceFile.ofText variant text).root = .compose .file (Scanner.start text).token.stop
      (Line.nodesOf (Line.nest (Row.ofText text)) ++ [(Leaf.ofToken q.scan.token).node .part])
      none := by
    rw [SourceFile.root, endOfFile_eq variant stop atEnd empty]
    rfl
  -- Onto the first token, over the lines, over the end of the text.
  have moved := builds_bump (b := .create text) within.scan.fits
  obtain ⟨cs, fill⟩ := block.fill
  obtain ⟨b₁, lines, there, within₁, grown₁⟩ := block.run
    { Builder.create text with scanner := (Scanner.start text).scan } none none rfl within.scan
    trivial
  obtain ⟨b₂, last, passed, grown₂⟩ := stores_token within₁ .part
  rw [there] at last passed grown₂
  have ending := Node.fill_ofToken q.scan.token .part
  rw [Scanner.start_scan] at ending
  have extent := Node.extent_compose (fill.append ending).tile .file none
  have behind := Scanner.scan_of_rest_nil (Scanner.scan_of_endOfText atEnd).2
  have expected := @stores_expect_of b₁ b₂ .endOfText _ (by rw [there, atEnd]; rfl) last
  have grown := grown₁.trans grown₂
  rw [root, extent]
  refine ⟨b₂, ?_, ?_, ⟨grown.nodes, grown.findings.trans (congrArg _ (List.append_nil _))⟩, ?_⟩
  · rw [passed]
    exact ⟨behind.1, (Scanner.scan_of_endOfText behind.1).2⟩
  · rw [passed, Scanner.start_scan]
  · intro room
    have start : (Builder.create text).scanner.scan.token.start = (Scanner.start text).token.stop :=
      Scanner.start_scan _
    have ids := grown₁.roots [(Leaf.ofToken q.scan.token).node .part]
    refine (moved.run_bind _).trans (((builds_here _).run_bind _).trans ?_)
    refine ((lines.ends (expected.grows.trans room)).run_bind _).trans ?_
    refine ((expected.ends room).run_bind _).trans ?_
    dsimp only
    rw [start]
    exact congrArg (fun ids => finish (Scanner.start text).token.stop .file ids false none b₂)
      ids.symm

/-- The machine in front of the first line builds the tree of the file. -/
theorem stores_sourceFile (variant : Variant) (text : List Char)
    (short : byteLength text < wordBound) :
    ∃ b, Stores (do bump; sourceFile) (.create text)
        (Node.rootAt 0 (SourceFile.ofText variant text).root) b
      ∧ b.scanner.token.kind = .endOfText ∧ b.scanner.rest = []
      ∧ Grown (.create text) b [(SourceFile.ofText variant text).root]
          (SourceFile.ofText variant text).diagnostics := by
  obtain ⟨b, ⟨atEnd, rest⟩, stop, grown, run⟩ := run_sourceFile variant text short
  have sound := sound_root variant text
  obtain ⟨b', finished, same, grown'⟩ := stores_finish grown sound stop
  refine ⟨b', ⟨Nat.zero_le _, fun room => ?_⟩, same ▸ atEnd, same ▸ rest, grown'⟩
  exact (run (finished.grows.trans room)).trans (finished.ends room)

end Build

/-- For a text that is not too long and has not too many nodes, the machine ends with the nodes and
the findings of the file. -/
theorem exists_build (variant : Variant) (text : List Char) (short : byteLength text < wordBound)
    (few : (SourceFile.ofText variant text).root.size ≤ wordBound) :
    ∃ b, build text = Part.some (.ok (Node.rootAt 0 (SourceFile.ofText variant text).root, b))
      ∧ b.nodes.values = (SourceFile.ofText variant text).root.entries 0 none
      ∧ b.findings = (SourceFile.ofText variant text).diagnostics := by
  obtain ⟨b, stored, -, -, grown⟩ := Build.stores_sourceFile variant text short
  have size : b.nodes.size = _ := grown.size_singleton.trans (Nat.zero_add _)
  refine ⟨b, stored.ends (size.trans_le few), ?_, grown.findings⟩
  rw [grown.nodes, Node.entriesAll_singleton]
  rfl

/-- Of a text with one node more than there are indices, all nodes are stored, but the last one, the
root, gets the index of the first one, which is a leaf. What is under the root has no parent. -/
theorem build_of_full (variant : Variant) (text : List Char) (short : byteLength text < wordBound)
    (full : (SourceFile.ofText variant text).root.size = wordBound + 1) :
    ∃ b, build text = Part.some (.ok (0, b))
      ∧ b.nodes.values
        = Node.entriesAll 0 none (SourceFile.ofText variant text).root.children
          ++ [(SourceFile.ofText variant text).root.label.entry
            (Node.roots 0 (SourceFile.ofText variant text).root.children) none] := by
  obtain ⟨b, -, stop, grown, run⟩ := Build.run_sourceFile variant text short
  have sound := sound_root variant text
  have kind : (SourceFile.ofText variant text).root.label.kind = .file := rfl
  have missing : (SourceFile.ofText variant text).root.label.missing = false := rfl
  have level : (SourceFile.ofText variant text).root.label.level = none := rfl
  generalize (SourceFile.ofText variant text).root = t at *
  obtain ⟨l, ts⟩ := t
  have size : b.nodes.size = wordBound := by
    rw [Rose.size] at full
    exact (grown.size.trans (Nat.zero_add _)).trans (Nat.succ.inj full)
  have finish := Build.run_finish sound stop (Node.roots 0 ts)
  rw [Rose.label] at kind missing level
  rw [kind, missing, level] at finish
  have nodes : b.nodes.values = Node.entriesAll 0 none ts := grown.nodes
  cases ts with
  | nil =>
    rw [Slots.size, nodes] at size
    exact absurd size (by decide)
  | cons u us =>
    obtain ⟨first, head, leaf⟩ := Node.head_entries 0 none u
    have found : b.nodes.get? 0 = some first := by
      rw [Slots.get?, nodes, Node.entriesAll, ← List.head?_eq_getElem?, List.head?_append, head]
      rfl
    exact ⟨_, (run size.le).trans (finish.trans (Build.builds_alloc_of_full size found leaf)),
      congrArg (· ++ _) nodes⟩

/-- Of so many line feeds that they have one node more than there are indices, the machine gives the
first comment for the root. That has a parent, and the lines have none. -/
theorem build_feeds {n : Nat} (full : 3 * (n + 1) + 2 = wordBound + 1) :
    ∃ b line, build (List.replicate (n + 1) '\n') = Part.some (.ok (0, b))
      ∧ b.nodes.size = wordBound + 1
      ∧ b.nodes.get? 0 = some ⟨.comment, ⟨.origin, .origin⟩, 0, false, none, [], some 2⟩
      ∧ b.nodes.get? 2 = some line ∧ line.kind = .commentLine ∧ line.parent = none := by
  have short : byteLength (List.replicate (n + 1) '\n') < wordBound := by
    rw [byteLength_feeds]
    omega
  obtain ⟨b, built, values⟩ := build_of_full .html _ short (by rw [size_root_feeds, full])
  obtain ⟨line, rest, entries, kind, parent⟩ := entries_feeds .html n
  have under := Rose.sizeAll_children (SourceFile.ofText .html (List.replicate (n + 1) '\n')).root
  rw [size_root_feeds, full] at under
  refine ⟨b, line, built, ?_, ?_, ?_, kind, parent⟩
  · rw [Slots.size, values, List.length_append, Node.length_entriesAll]
    exact under
  · rw [Slots.get?, values, entries]
    rfl
  · rw [Slots.get?, values, entries]
    rfl

/-- A text that is not too long, and has no more nodes than there are indices, is read to its end,
in order. What is stored then is the tree of the file, node by node, and what was reported are its
findings. -/
theorem build_total (variant : Variant) (text : List Char) (short : byteLength text < wordBound)
    (few : (SourceFile.ofText variant text).root.size ≤ wordBound) :
    ∃ b, build text = Part.some (.ok (Node.rootAt 0 (SourceFile.ofText variant text).root, b))
      ∧ b.scanner.token.kind = .endOfText ∧ b.scanner.rest = []
      ∧ b.nodes.values = (SourceFile.ofText variant text).root.entries 0 none
      ∧ (∃ e, b.nodes.get? (Node.rootAt 0 (SourceFile.ofText variant text).root) = some e
          ∧ e.extent.span = ⟨0, byteLength text⟩)
      ∧ b.findings = (SourceFile.ofText variant text).diagnostics := by
  obtain ⟨b, stored, atEnd, rest, grown⟩ := Build.stores_sourceFile variant text short
  have span := span_root variant text
  have nodes := grown.nodes
  have findings := grown.findings
  have size : b.nodes.size = _ := grown.size_singleton.trans (Nat.zero_add _)
  have built := stored.ends (size.trans_le few)
  generalize (SourceFile.ofText variant text).root = t at built span nodes grown ⊢
  obtain ⟨l, ts⟩ := t
  refine ⟨b, built, atEnd, rest, ?_, ⟨_, grown.get?_root, span⟩, findings⟩
  rw [nodes, Node.entriesAll_singleton]
  rfl

/-- A text under an element, without a break at the end. -/
theorem build_total_of_text :
    byteLength ['>', 'p', '\n', ' ', '|', 'x'] < wordBound
      ∧ (SourceFile.ofText .html ['>', 'p', '\n', ' ', '|', 'x']).root.size ≤ wordBound
      ∧ ∃ b, build ['>', 'p', '\n', ' ', '|', 'x']
          = Part.some (.ok
              (Node.rootAt 0 (SourceFile.ofText .html ['>', 'p', '\n', ' ', '|', 'x']).root, b))
        ∧ b.scanner.token.kind = .endOfText ∧ b.scanner.rest = [] := by
  have short : byteLength ['>', 'p', '\n', ' ', '|', 'x'] < wordBound := by decide
  have few : (SourceFile.ofText .html ['>', 'p', '\n', ' ', '|', 'x']).root.size ≤ wordBound := by
    decide +kernel
  obtain ⟨b, built, atEnd, rest, -⟩ := build_total .html ['>', 'p', '\n', ' ', '|', 'x'] short few
  exact ⟨short, few, b, built, atEnd, rest⟩

/-- 1431655765 line feeds are no long text, but they have one node more than there are indices. For
the root the machine gives the index of the first comment, which covers nothing of the text. -/
theorem build_mistakes_root :
    byteLength (List.replicate 1431655765 '\n') < wordBound
      ∧ (SourceFile.ofText .html (List.replicate 1431655765 '\n')).root.size = wordBound + 1
      ∧ ∃ b e, build (List.replicate 1431655765 '\n') = Part.some (.ok (0, b))
        ∧ b.nodes.get? 0 = some e ∧ e.kind = .comment ∧ e.extent.span = ⟨0, 0⟩
        ∧ e.extent.span ≠ ⟨0, byteLength (List.replicate 1431655765 '\n')⟩ := by
  obtain ⟨b, line, built, -, first, -⟩ := build_feeds (n := 1431655764) rfl
  rw [byteLength_feeds, size_root_feeds]
  exact ⟨by decide, rfl, b, _, built, first, rfl, rfl, by decide⟩

end OffsideMarkup
