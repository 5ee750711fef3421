/-
OffsideMarkup.Proofs.LineNodes — the lines of a tree are the lines of its text.

A document finds its lines with a table of breaks and knows nothing of tokens. The parser never
looks at that table: it ends a line where its grammar comes to a break, and starts the next one
there. Both come to the same lines. There is one line node for each line of the table, but for the
one without characters that the table has behind a break at the end of the text, and in a text that
has none.

* `Line.Covers` — what a line node says about the line of the text it is for: where it starts, how
  far it is indented, and that its last token takes the break.
* `covers_of_getElem?` — this holds of what is read between two breaks, whatever the line is.
* `line_nodes` — line by line it holds of the tree of a text.

The tree is what the builder stores, if the text is short enough to be numbered in machine words.
-/
import OffsideMarkup.Proofs.BuilderTotal
import OffsideMarkup.Proofs.LineLocality
import OffsideMarkup.Proofs.LineTokens
import OffsideMarkup.Proofs.Shift

namespace OffsideMarkup

/-! ## 1. As many lines -/

/-- In a text that is empty or ends in a break, the last line of the table has no characters. -/
theorem filter_endedLines (text : List Char) :
    (endedLines text).filter (!·.source.isEmpty)
      = if text.getLast?.all isLineBreak then (endedLines text).dropLast else endedLines text := by
  induction text using byLines with
  | last cs unbroken =>
    rw [endedLines_last unbroken]
    cases last : cs.getLast? with
    | none =>
      obtain rfl := List.getLast?_eq_none_iff.mp last
      rfl
    | some c =>
      have inner := unbroken c (List.mem_of_getLast? last)
      have some_text : cs ≠ [] := by rintro rfl; simp at last
      simp [EndedLine.source, inner, some_text]
  | line cs brk after unbroken h ih =>
    obtain ⟨c, ds, rfl, first⟩ := h.exists_cons
    have some_text : (EndedLine.source ⟨cs, c :: ds⟩).isEmpty = false := by simp [EndedLine.source]
    rw [endedLines_line unbroken h, List.filter_cons_of_pos (by simp [some_text]), ih]
    cases after with
    | nil =>
      have last : (cs ++ (c :: ds ++ [])).getLast?.all isLineBreak = true := by
        rw [List.append_nil, List.getLast?_append_cons]
        cases at_last : (c :: ds).getLast? with
        | none => rfl
        | some d => exact h.isLineBreak d (List.mem_of_getLast? at_last)
      rw [last]
      rfl
    | cons d after =>
      have some_lines : endedLines (d :: after) ≠ [] := by
        intro none
        have whole := flatMap_source_endedLines (d :: after)
        rw [none] at whole
        simp at whole
      have last : (cs ++ (c :: ds ++ d :: after)).getLast? = (d :: after).getLast? := by
        rw [← List.append_assoc, List.getLast?_append_cons]
      rw [last]
      split
      · rw [List.dropLast_cons_of_ne_nil some_lines]
      · rfl

theorem Scanner.Reads.map_ended {p f : Scanner} {ls : List TokenLine} (h : p.Reads ls f) :
    ls.map TokenLine.ended = (endedLines p.rest).filter (!·.source.isEmpty) := by
  induction h with
  | done atEnd empty =>
    rw [rest_of_endOfText atEnd empty]
    rfl
  | @line p e f l ls first later ih =>
    have some_text : (!l.ended.source.isEmpty) = true := by
      simpa [l.source_ended] using first.source_ne_nil
    rw [first.endedLines_rest,
      List.filter_cons_of_pos (p := fun m : EndedLine => !m.source.isEmpty) some_text,
      List.map_cons, ih]
    obtain ⟨-, ⟨kind, -⟩ | ⟨kind, -, rest⟩⟩ := first.stop_cases
    · rw [if_pos kind]
    · rw [kind, if_neg (by decide), rest]
      rfl

/-- What is read of a text, line by line, are its lines, the last one only if it has characters. -/
theorem map_ended_ofText (text : List Char) :
    (TokenLine.ofText text).map TokenLine.ended
      = if text.getLast?.all isLineBreak then (endedLines text).dropLast else endedLines text := by
  obtain ⟨f, reads, -⟩ := Scanner.reads_ofText text
  rw [← filter_endedLines]
  exact reads.map_ended

theorem prefix_endedLines (text : List Char) :
    (TokenLine.ofText text).map TokenLine.ended <+: endedLines text := by
  rw [map_ended_ofText]
  split
  · exact List.dropLast_prefix _
  · exact List.prefix_rfl

/-! ## 2. Where a line starts -/

/-- The table and the lexer have the same start for a line. -/
theorem lineByte_eq {text : List Char} {k : Nat} (read : k ≤ (TokenLine.ofText text).length) :
    lineByte text k = (lineStart text k).offset := by
  obtain ⟨rest, whole⟩ := prefix_endedLines text
  obtain ⟨f, reads, -⟩ := Scanner.reads_ofText text
  have lines : physicalLines text = (TokenLine.ofText text).map TokenLine.source :=
    reads.physicalLines
  have sources : EndedLine.source ∘ TokenLine.ended = TokenLine.source :=
    funext TokenLine.source_ended
  show byteLength _ = byteLength _
  rw [← whole, List.take_append_of_le_length (by simpa using read), lines, List.flatMap_def,
    ← List.map_take, ← List.map_take, List.map_map, sources]

/-! ## 3. Line nodes -/

/-- What a line of the tree says about the `k`-th line of the text, which has these bytes, and is
`content` with `brk` at the end. -/
structure Line.Covers (k : Nat) (span : Span) (content brk : List Char) (l : Line) : Prop where
  start : l.node.label.extent.start.offset = span.start
  position : l.node.label.extent.start.position = ⟨k, 0⟩
  level : l.node.label.level = some (unitLength (content.takeWhile isInlineSpace))
  indent : l.frame.indent = none ↔ l.level = 0
  present : l.frame.endOfLine.missing = false
  kind : l.frame.endOfLine.kind = if brk = [] then .endOfText else .lineBreak
  /-- A token has the space in front of it. -/
  ending : ∃ space, space <:+ content ∧ (∀ c ∈ space, isInlineSpace c = true)
    ∧ l.frame.endOfLine.source = space ++ brk
  stop : l.frame.endOfLine.extent.stop.offset = span.stop

theorem Line.level_node (l : Line) : l.node.label.level = some l.level := by
  cases l <;> rw [node] <;> rfl

/-- The token that ends a line starts behind the others, and stops where the line does. -/
theorem Scanner.ReadsLine.offset_stop {p e : Scanner} {l : TokenLine} (h : p.ReadsLine l e) :
    l.stop.stop.offset = l.start.offset + byteLength l.source := by
  have line : InLine l.stop (l.front ++ []) := by simpa using h.inLine
  have start := InLine.nextStart_append line
  rw [List.append_nil, ← l.start_eq_nextStart] at start
  have start : l.start.after (l.front.flatMap Token.source) = l.stop.start := start
  have stop : l.stop.stop.offset = l.stop.start.offset + byteLength l.stop.source :=
    (Node.spans_leaf (.ofToken l.stop)).1
  rw [stop, ← start, TokenLine.source, byteLength_append, ← Nat.add_assoc]
  rfl

/-- The node of a line that is read covers the characters of the line. -/
theorem covers_of_getElem? {text : List Char} {k : Nat} {tl : TokenLine} {l : Line}
    (at_k : (TokenLine.ofText text)[k]? = some tl) (row : l.row = Row.ofTokenLine tl) :
    l.Covers k ⟨lineByte text k, lineByte text k + byteLength tl.ended.source⟩ tl.ended.content
      tl.ended.ending := by
  obtain ⟨q, e, line, -⟩ := exists_readsLine at_k
  have read : k < (TokenLine.ofText text).length := (List.getElem?_eq_some_iff.mp at_k).1
  have byte := lineByte_eq (Nat.le_of_lt read)
  have start : l.node.label.extent.start = lineStart text k := by
    rw [l.start_node, row, start_ofTokenLine at_k]
  have level : l.level = unitLength tl.ended.space := by
    rw [Line.level, ← frame_row, row]
    exact line.level_ofTokenLine.trans (congrArg unitLength line.split_ended.1)
  have frame : l.frame = ⟨tl.start, tl.indent.map .ofToken, .ofToken tl.stop,
      (Reader.content tl.stop tl.body).findings⟩ := by
    rw [← frame_row, row, frame_ofTokenLine]
  have stop : tl.start = lineStart text k := by
    rw [← start_ofTokenLine at_k, frame_ofTokenLine]
  have lexed := line.lexed
  refine ⟨start ▸ byte.symm, by rw [start]; rfl, by rw [l.level_node, level]; rfl, ?_, ?_, ?_, ?_,
    ?_⟩
  · have indent := lexed.indent
    rw [level, unitLength_eq_zero, frame]
    cases given : tl.indent with
    | none => simpa [given] using indent
    | some t =>
      rw [given] at indent
      split at indent
      · simp at indent
      · next space => simp [space]
  · rw [frame]
    rfl
  · rw [frame]
    exact lexed.stop
  · rw [frame]
    exact ⟨tl.stop.trivia, List.suffix_append .., lexed.space, rfl⟩
  · have last := line.offset_stop
    rw [frame, TokenLine.source_ended, byte, ← stop]
    exact last

/-! ## 4. The lines of a tree -/

/-- The line nodes of a tree in document order are one for each line of the table that has
characters, and each of them covers its line. The builder stores this tree. -/
theorem line_nodes (variant : Variant) (text : List Char) :
    let file := SourceFile.ofText variant text
    let table := LineStarts.ofText text
    file.root.subtrees.filter (·.label.isLine) = (Line.withinAll file.lines).map Line.node
      ∧ (Line.withinAll file.lines).length
        = (if text.getLast?.all isLineBreak then table.count - 1 else table.count)
      ∧ (∀ (k : Nat) (l : Line), (Line.withinAll file.lines)[k]? = some l →
        ∃ span content brk, table.line? k = some span
          ∧ sliceBytes span.start span.stop text = content ++ brk ∧ Unbroken content
          ∧ (IsBreak brk [] ∨ brk = [] ∧ k + 1 = table.count)
          ∧ l.Covers k span content brk)
      ∧ (byteLength text < wordBound → file.root.size ≤ wordBound →
        ∃ b, build text = Part.some (.ok (Node.rootAt 0 file.root, b))
          ∧ b.nodes.values = file.root.entries 0 none) := by
  intro file table
  have rows := map_row_withinAll_lines variant text
  have read := map_ended_ofText text
  refine ⟨filter_isLine_root file, ?_, ?_, fun short few => ?_⟩
  · have count := congrArg List.length rows
    have lines := congrArg List.length read
    rw [List.length_map, Row.ofText, List.length_map] at count
    rw [count, LineStarts.count_ofText, ← List.length_map (f := TokenLine.ended), lines]
    split
    · exact List.length_dropLast
    · rfl
  · intro k l at_k
    have row := congrArg (·[k]?) rows
    simp only [Row.ofText, List.getElem?_map] at row
    rw [at_k] at row
    obtain ⟨tl, token_at_k, row⟩ := Option.map_eq_some_iff.mp row.symm
    have ended : (endedLines text)[k]? = some tl.ended := by
      obtain ⟨rest, whole⟩ := prefix_endedLines text
      have inside : k < ((TokenLine.ofText text).map TokenLine.ended).length := by
        rw [List.length_map]
        exact (List.getElem?_eq_some_iff.mp token_at_k).1
      rw [← whole, List.getElem?_append_left inside, List.getElem?_map, token_at_k]
      rfl
    obtain ⟨unbroken, ending⟩ := endedLines_cases ended
    refine ⟨_, tl.ended.content, tl.ended.ending, ?_, ?_, unbroken, ?_,
      covers_of_getElem? token_at_k row.symm⟩
    · rw [LineStarts.line?_ofText, ended, Option.map_some]
    · exact sliceBytes_lineByte ended
    · rwa [LineStarts.count_ofText]
  · obtain ⟨b, built, nodes, -⟩ := exists_build variant text short few
    exact ⟨b, built, nodes⟩

end OffsideMarkup
