/-
OffsideMarkup.Proofs.LineLocality — a line is read for itself.

Take a line out of its text and read it by itself. Its node is then the node it has in the tree of
the text, but for the lines nested in that, and the findings about it are those about the text that
start on it, but for the warning about its indentation. Only where it stands is different. So what
is malformed on one line, a hole that is never closed or a name that is missing, does not change
how any other line is read (`line_locality`).

What the lines around a line decide is which lines are nested in it and whether it is indented too
far. Both are left aside: `Node.withoutLines` takes the nested lines out of a node, and the warning
is the only finding that is not the line's own (`filter_diagnostics`).

The scanner in front of a line stands where the text of the lines before ends (`exists_readsLine`).
From there on the lexer reads the line as if it were alone (`ReadsLine.ofText_source`), and the
grammar does not look at where it is (`Row.ofTokenLine_shift`).
-/
import OffsideMarkup.Proofs.Coordinates
import OffsideMarkup.Proofs.LexerLocality

namespace OffsideMarkup

/-! ## 1. Where a line starts -/

/-- Where a line of a text starts: behind the lines before it. -/
def lineStart (text : List Char) (k : Nat) : Location :=
  let before := ((physicalLines text).take k).flatten
  ⟨byteLength before, k, 0, unitLength before⟩

/-- The scanner in front of a line stands where the line starts. -/
theorem exists_readsLine {text : List Char} {k : Nat} {l : TokenLine}
    (at_k : (TokenLine.ofText text)[k]? = some l) :
    ∃ q e : Scanner, q.ReadsLine l e ∧ q.token.stop = lineStart text k := by
  obtain ⟨f, reads, -⟩ := Scanner.reads_ofText text
  obtain ⟨q, e, ts, line, passes, later, number⟩ := reads.line_at at_k
  refine ⟨q, e, line, ?_⟩
  obtain ⟨before, split, -, stop⟩ := (passes.charted (Scanner.stands_start text)).1.stop
  have lines : physicalLines q.rest = (physicalLines text).drop k := by
    rw [later.physicalLines, List.map_drop, ← reads.physicalLines]
    rfl
  have front : ((physicalLines text).take k).flatten = before := by
    have whole : ((physicalLines text).take k).flatten ++ q.rest = before ++ q.rest := by
      rw [← split, ← flatten_physicalLines q.rest, lines, ← List.flatten_append,
        List.take_append_drop, flatten_physicalLines]
    exact List.append_cancel_right whole
  have offset : q.token.stop.offset = byteLength before := by
    rw [stop, Location.offset_origin_through]
  have units : q.token.stop.units = unitLength before := by
    rw [stop, Location.units_through]
    exact Nat.zero_add _
  have number : q.token.stop.line = k := number.trans (Nat.zero_add k)
  calc q.token.stop = ⟨q.token.stop.offset, q.token.stop.line, q.token.stop.column,
          q.token.stop.units⟩ := rfl
    _ = lineStart text k := by rw [offset, number, line.opens.1, units, lineStart, front]

/-! ## 2. The nodes of a line -/

/-- The lines of a tree that start on a line of the text. -/
def Node.linesAt (n : Node) (k : Nat) : List Node :=
  (n.subtrees.filter (·.label.isLine)).filter (·.label.extent.start.line == k)

theorem Line.start_node (l : Line) : l.node.label.extent.start = l.row.frame.start := by
  cases l <;> rw [node] <;> rfl

/-- A row by itself is a line by itself. -/
theorem exists_nest_singleton (r : Row) : ∃ l, Line.nest [r] = [l] ∧ l.row = r := by
  cases r with
  | simple f b => exact ⟨.simple f b, by rw [Line.nest, Line.nest], rfl⟩
  | element f t =>
    refine ⟨.element f t [], ?_, rfl⟩
    rw [Line.nest, Row.ahead, if_neg (Nat.not_lt_zero _), Line.nest]

theorem start_ofTokenLine {text : List Char} {k : Nat} {l : TokenLine}
    (at_k : (TokenLine.ofText text)[k]? = some l) :
    (Row.ofTokenLine l).frame.start = lineStart text k := by
  obtain ⟨q, e, line, stop⟩ := exists_readsLine at_k
  rw [frame_ofTokenLine, ← stop]
  exact line.start

/-- On every line of a text starts one line of its tree. -/
theorem linesAt_root (variant : Variant) {text : List Char} {k : Nat} {l : TokenLine}
    (at_k : (TokenLine.ofText text)[k]? = some l) :
    ∃ own : Line, (SourceFile.ofText variant text).root.linesAt k = [own.node]
      ∧ own.row = Row.ofTokenLine l := by
  have rows := map_row_withinAll_lines variant text
  rw [Row.ofText] at rows
  have nodes := filter_isLine_root (SourceFile.ofText variant text)
  generalize Line.withinAll (SourceFile.ofText variant text).lines = lines at rows nodes
  have row : ∀ i : Nat, lines[i]?.map Line.row = (TokenLine.ofText text)[i]?.map Row.ofTokenLine :=
    fun i => by rw [← List.getElem?_map, rows, List.getElem?_map]
  have numbered : ∀ (i : Nat) (m : Line), lines[i]? = some m →
      ∀ n ∈ [m.node], n.label.extent.start.line = 0 + i := by
    intro i m at_i n hn
    have here := row i
    rw [at_i, Option.map_some] at here
    obtain ⟨l, at_i, e⟩ := Option.map_eq_some_iff.mp here.symm
    rw [List.mem_singleton.mp hn, m.start_node, ← e, start_ofTokenLine at_i, Nat.zero_add]
    rfl
  have here := row k
  rw [at_k, Option.map_some] at here
  obtain ⟨own, own_at_k, e⟩ := Option.map_eq_some_iff.mp here
  refine ⟨own, ?_, e⟩
  have on := filter_flatMap_of_number numbered (Nat.zero_add k).symm
  rw [own_at_k, ← List.map_eq_flatMap, ← nodes] at on
  exact on

/-! ## 3. The findings of a line -/

/-- A finding of the grammar starts on its line. -/
theorem line_findings {text : List Char} {k : Nat} {l : TokenLine}
    (at_k : (TokenLine.ofText text)[k]? = some l) :
    ∀ d ∈ (Row.ofTokenLine l).frame.findings, d.region.start.line = k := by
  obtain ⟨q, e, line, stop⟩ := exists_readsLine at_k
  have number : q.token.stop.line = k := by rw [stop]; rfl
  rw [frame_ofTokenLine]
  intro d hd
  obtain ⟨t, ht, message, args, -, rfl⟩ := Reader.reports_content l.stop l.body d hd
  show t.start.line = k
  rw [← number]
  refine line.line_of_mem t ?_
  rw [TokenLine.front, List.append_assoc]
  exact List.mem_append_right _ ht

/-- What a file has to say about a line, indentation aside, is what was found in the line. -/
theorem diagnosticsAt_eq (variant : Variant) {text : List Char} {k : Nat} {l : TokenLine}
    (at_k : (TokenLine.ofText text)[k]? = some l) :
    ((SourceFile.ofText variant text).diagnostics.filter (·.code != 3)).filter
        (·.region.start.line == k)
      = (Row.ofTokenLine l).frame.findings.filter (·.code != 3) := by
  have own := filter_diagnostics (p := (·.code != 3)) rfl variant text
  have numbered : ∀ (i : Nat) (r : Row), (Row.ofText text)[i]? = some r →
      ∀ d ∈ r.frame.findings.filter (·.code != 3), d.region.start.line = 0 + i := by
    intro i r at_i d hd
    rw [Row.ofText, List.getElem?_map] at at_i
    obtain ⟨l, tokens_at_i, rfl⟩ := Option.map_eq_some_iff.mp at_i
    rw [line_findings tokens_at_i d (List.mem_filter.mp hd).1, Nat.zero_add]
  have on := filter_flatMap_of_number numbered (Nat.zero_add k).symm
  have row : (Row.ofText text)[k]? = some (Row.ofTokenLine l) := by
    rw [Row.ofText, List.getElem?_map, at_k]
    rfl
  rw [row] at on
  exact (congrArg (List.filter _) own).trans on

/-! ## 4. Locality -/

theorem Row.findings_shift (r : Row) (base : Location) :
    (r.shift base).frame.findings = r.frame.findings.map (·.shift base) := by
  cases r <;> rfl

/-- A text of one line has one line in its tree, which is what was read of the line. -/
theorem file_of_singleton (variant : Variant) {text : List Char} {l : TokenLine}
    (single : TokenLine.ofText text = [l]) :
    ∃ own : Line, (SourceFile.ofText variant text).lines = [own] ∧ own.row = Row.ofTokenLine l := by
  obtain ⟨own, nested, row⟩ := exists_nest_singleton (Row.ofTokenLine l)
  refine ⟨own, ?_, row⟩
  show Line.nest (Row.ofText text) = [own]
  rw [Row.ofText, single, List.map_singleton, nested]

/-- Each line of a text is read as if it were all of the text: its node is the same without the
lines nested in it, and so are the findings about it, the warning about its indentation aside. -/
theorem line_locality (variant : Variant) {text line : List Char} {k : Nat}
    (h : (physicalLines text)[k]? = some line) :
    ∃ own alone : Node,
      (SourceFile.ofText variant text).root.linesAt k = [own]
      ∧ (SourceFile.ofText variant line).root.children.filter (·.label.isLine) = [alone]
      ∧ own.withoutLines = Node.shift (lineStart text k) alone.withoutLines
      ∧ ((SourceFile.ofText variant text).diagnostics.filter (·.code != 3)).filter
            (·.region.start.line == k)
          = ((SourceFile.ofText variant line).diagnostics.filter (·.code != 3)).map
              (·.shift (lineStart text k)) := by
  obtain ⟨f, reads, -⟩ := Scanner.reads_ofText text
  obtain ⟨l, at_k, rfl⟩ : ∃ l, (TokenLine.ofText text)[k]? = some l ∧ l.source = line := by
    have lines : physicalLines text = _ := reads.physicalLines
    rw [lines, List.getElem?_map] at h
    exact Option.map_eq_some_iff.mp h
  obtain ⟨q, e, there, stop⟩ := exists_readsLine at_k
  obtain ⟨l', single, same⟩ := there.ofText_source
  rw [stop] at same
  obtain ⟨own, here, ownRow⟩ := linesAt_root variant at_k
  obtain ⟨alone, lines, aloneRow⟩ := file_of_singleton variant single
  have row : own.row = alone.row.shift (lineStart text k) := by
    rw [ownRow, aloneRow, ← Row.ofTokenLine_shift, ← same]
  refine ⟨own.node, alone.node, here, ?_, ?_, ?_⟩
  · show (Line.nodesOf (SourceFile.ofText variant l.source).lines ++ [_]).filter _ = _
    rw [lines, Line.nodesOf_eq_map, List.map_singleton, List.singleton_append]
    exact List.filter_cons_of_pos (p := fun n : Node => n.label.isLine) alone.isLine_node
  · rw [own.withoutLines_node, alone.withoutLines_node, row, Row.node_shift]
  · have apart := filter_diagnostics (p := (·.code != 3)) rfl variant l.source
    rw [Row.ofText, single, List.map_singleton, List.flatMap_singleton] at apart
    have findings := congrArg (fun l => (Row.ofTokenLine l).frame.findings) same
    rw [diagnosticsAt_eq variant at_k, findings, Row.ofTokenLine_shift, Row.findings_shift,
      List.filter_map]
    exact congrArg (List.map _) apart.symm

/-- A hole without a path and without closing braces, between an element and a mounting point. -/
theorem line_locality_of_open_hole :
    (physicalLines ['>', 'a', '\n', '.', '{', '{', '\r', '\n', '+', 'b'])[1]?
        = some ['.', '{', '{', '\r', '\n']
      ∧ ∃ own alone : Node,
        (SourceFile.ofText .html
            ['>', 'a', '\n', '.', '{', '{', '\r', '\n', '+', 'b']).root.linesAt 1 = [own]
        ∧ (SourceFile.ofText .html
            ['.', '{', '{', '\r', '\n']).root.children.filter (·.label.isLine) = [alone]
        ∧ own.withoutLines = Node.shift ⟨3, 1, 0, 3⟩ alone.withoutLines
        ∧ ((SourceFile.ofText .html
              ['>', 'a', '\n', '.', '{', '{', '\r', '\n', '+', 'b']).diagnostics.filter
                (·.code != 3)).filter (·.region.start.line == 1)
            = ((SourceFile.ofText .html ['.', '{', '{', '\r', '\n']).diagnostics.filter
                (·.code != 3)).map (·.shift ⟨3, 1, 0, 3⟩) :=
  ⟨by decide, line_locality .html (by decide)⟩

end OffsideMarkup
