/-
OffsideMarkup.Proofs.LineOrder — nesting leaves the lines of a file where they are in the text.

The lines of a file, with those nested in them, are a list in document order (`Line.withinAll`).
Here is what that order and the numbers of the lines have to do with each other.

* `map_lineNumber` — the numbers count up from zero, one for each line of the text.
* `Line.infix_within` — a line with what is nested in it is a stretch of the list, and so are the
  lines of a block with theirs (`infix_block`). Hence numbers in such a stretch are consecutive
  (`exists_range'_of_infix`), and an element comes before what is nested in it
  (`lineNumber_lt_of_mem_nested`).
* `Line.perm_children` — the lines of a list and the lines that stand under a line of it or of
  theirs are all lines, each once.
* `Line.last` — the last line of what is nested in a line. It has the greatest number of these
  (`eq_last_or_lt`), and is not blank unless it is the line itself (`isBlank_last`).
-/
import OffsideMarkup.Proofs.Indentation
import OffsideMarkup.Proofs.LineLocality

namespace OffsideMarkup

/-! ## 1. Document order -/

namespace Line

theorem within_eq (l : Line) : l.within = l :: withinAll l.children := by
  cases l <;> rfl

theorem mem_within (l : Line) : l ∈ l.within := by
  rw [within_eq]
  exact List.mem_cons_self

theorem withinAll_cons (l : Line) (ls : List Line) :
    withinAll (l :: ls) = l :: (withinAll l.children ++ withinAll ls) := by
  rw [withinAll, within_eq, List.cons_append]

theorem withinAll_eq_flatMap (ls : List Line) : withinAll ls = ls.flatMap within := by
  induction ls with
  | nil => rfl
  | cons l ls ih => rw [withinAll, ih, List.flatMap_cons]

theorem withinAll_append (ls ms : List Line) :
    withinAll (ls ++ ms) = withinAll ls ++ withinAll ms := by
  simp [withinAll_eq_flatMap]

theorem mem_withinAll {ls : List Line} {l : Line} (h : l ∈ ls) : l ∈ withinAll ls := by
  obtain ⟨front, back, rfl⟩ := List.append_of_mem h
  rw [withinAll_append, withinAll_cons]
  exact List.mem_append_right _ List.mem_cons_self

/-- Lines without lines under them are all there is. -/
theorem withinAll_of_childless {ls : List Line} (h : ∀ l ∈ ls, l.children = []) :
    withinAll ls = ls := by
  induction ls with
  | nil => rfl
  | cons l ls ih =>
    obtain ⟨first, later⟩ := List.forall_mem_cons.mp h
    rw [withinAll_cons, first, ih later]
    rfl

theorem sizeOf_children_lt (l : Line) (ls : List Line) : sizeOf l.children < sizeOf (l :: ls) := by
  cases l with
  | simple f body =>
    simp only [children, List.cons.sizeOf_spec, List.nil.sizeOf_spec, simple.sizeOf_spec]
    omega
  | element f t inner =>
    simp only [children, List.cons.sizeOf_spec, element.sizeOf_spec]
    omega

theorem sizeOf_lt_of_mem_children (l : Line) {m : Line} (h : m ∈ l.children) :
    sizeOf m < sizeOf l := by
  cases l with
  | simple f body => exact absurd h (by simp [children])
  | element f t ls =>
    have := List.sizeOf_lt_of_mem h
    simp only [children, element.sizeOf_spec] at this ⊢
    omega

/-- A line with what is nested in it is a stretch of the lines it is one of. -/
theorem infix_within {ls : List Line} {l : Line} (h : l ∈ withinAll ls) :
    l.within <:+: withinAll ls := by
  match ls with
  | [] => exact absurd h (by simp [withinAll])
  | m :: ls =>
    rw [withinAll_cons, List.mem_cons, List.mem_append] at h
    have first : withinAll m.children <:+: withinAll (m :: ls) := by
      rw [withinAll_cons]
      exact (List.prefix_append ..).isInfix.trans (List.suffix_cons ..).isInfix
    rcases h with rfl | nested | later
    · rw [withinAll]
      exact (List.prefix_append ..).isInfix
    · exact (infix_within nested).trans first
    · rw [withinAll]
      exact (infix_within later).trans (List.suffix_append ..).isInfix
termination_by sizeOf ls
decreasing_by
  · exact sizeOf_children_lt m ls
  · simp only [List.cons.sizeOf_spec]; omega

/-- What is nested in a line is a stretch as well. -/
theorem infix_children {ls : List Line} {l : Line} (h : l ∈ withinAll ls) :
    withinAll l.children <:+: withinAll ls := by
  refine List.IsInfix.trans ?_ (infix_within h)
  rw [within_eq]
  exact (List.suffix_cons ..).isInfix

/-- The lines of a list, and under each line there is the lines nested directly in it: these are all
lines. -/
theorem perm_children (ls : List Line) :
    (ls ++ (withinAll ls).flatMap children).Perm (withinAll ls) := by
  match ls with
  | [] => exact .refl _
  | l :: ls =>
    have nested := perm_children l.children
    have later := perm_children ls
    rw [withinAll_cons, List.flatMap_cons, List.flatMap_append, List.cons_append]
    refine List.Perm.cons l ?_
    calc ls ++ (l.children ++ ((withinAll l.children).flatMap children
            ++ (withinAll ls).flatMap children))
        = ls ++ ((l.children ++ (withinAll l.children).flatMap children)
            ++ (withinAll ls).flatMap children) := by rw [List.append_assoc]
      List.Perm _ ((l.children ++ (withinAll l.children).flatMap children)
            ++ (ls ++ (withinAll ls).flatMap children)) := List.perm_append_comm_assoc ..
      List.Perm _ (withinAll l.children ++ withinAll ls) := nested.append later
termination_by sizeOf ls
decreasing_by
  · exact sizeOf_children_lt l ls
  · simp only [List.cons.sizeOf_spec]; omega

/-- The last frame of a list of lines is that of the last line in document order. -/
theorem lastFrameOf_eq (own : Frame) (ls : List Line) :
    lastFrameOf own ls = ((withinAll ls).getLast?.map frame).getD own := by
  match ls with
  | [] => rfl
  | l :: ls =>
    have nested := lastFrameOf_eq l.frame l.children
    have first : l.lastFrame = lastFrameOf l.frame l.children := by
      cases l <;> rw [lastFrame] <;> rfl
    rw [lastFrameOf, lastFrameOf_eq l.lastFrame ls, first, nested, withinAll_cons,
      List.getLast?_cons, List.getLast?_append]
    cases (withinAll ls).getLast? <;> cases (withinAll l.children).getLast? <;> rfl
termination_by sizeOf ls
decreasing_by
  · exact sizeOf_children_lt l ls
  · simp only [List.cons.sizeOf_spec]; omega

/-- The last line that is nested in a line, or the line itself. -/
def last (l : Line) : Line := (withinAll l.children).getLast?.getD l

theorem getLast?_within (l : Line) : l.within.getLast? = some l.last := by
  rw [within_eq, List.getLast?_cons, last]

theorem last_mem_within (l : Line) : l.last ∈ l.within :=
  List.mem_of_getLast? l.getLast?_within

theorem last_mem_withinAll {ls : List Line} {l : Line} (h : l ∈ withinAll ls) :
    l.last ∈ withinAll ls :=
  (infix_within h).subset l.last_mem_within

theorem last_of_childless {l : Line} (h : l.children = []) : l.last = l := by
  simp [last, h, withinAll]

/-- The last line in a line is the last one in the last of those directly in it. -/
theorem last_of_getLast? {l c : Line} (h : l.children.getLast? = some c) : l.last = c.last := by
  obtain ⟨front, split⟩ := List.getLast?_eq_some_iff.mp h
  have nested : withinAll l.children = withinAll front ++ c.within := by
    simp [split, withinAll_append, withinAll]
  rw [last, nested, List.getLast?_append, getLast?_within]
  rfl

theorem frame_last (l : Line) : lastFrameOf l.frame l.children = l.last.frame := by
  rw [lastFrameOf_eq, last]
  cases (withinAll l.children).getLast? <;> rfl

end Line

/-! ## 2. Numbers -/

section

variable {variant : Variant} {text : List Char} {l m : Line} {ms : List Line}

/-- The characters of a line are those of its tokens. -/
theorem physicalLine_of_tokenLine {k : Nat} {tl : TokenLine}
    (at_k : (TokenLine.ofText text)[k]? = some tl) : (physicalLines text)[k]? = some tl.source := by
  obtain ⟨f, reads, -⟩ := Scanner.reads_ofText text
  rw [show physicalLines text = _ from reads.physicalLines, List.getElem?_map, at_k,
    Option.map_some]

/-- A line of a file was read from the tokens of the line with its number. -/
theorem exists_tokenLine (hl : l ∈ Line.withinAll (SourceFile.ofText variant text).lines) :
    ∃ tl, (TokenLine.ofText text)[l.lineNumber]? = some tl ∧ l.row = Row.ofTokenLine tl := by
  have rows := map_row_withinAll_lines variant text
  obtain ⟨i, at_i⟩ := List.mem_iff_getElem?.mp hl
  have here : (Row.ofText text)[i]? = some l.row := by
    rw [← rows, List.getElem?_map, at_i, Option.map_some]
  rw [Row.ofText, List.getElem?_map] at here
  obtain ⟨tl, tokens_at_i, row⟩ := Option.map_eq_some_iff.mp here
  have number : l.lineNumber = i := by
    have start := start_ofTokenLine tokens_at_i
    rw [row, frame_row] at start
    exact congrArg Location.line start
  exact ⟨tl, number ▸ tokens_at_i, row.symm⟩

/-- Every line of tokens was read to a line of the file with its number. -/
theorem exists_line_of_tokenLine (variant : Variant) {k : Nat} {tl : TokenLine}
    (at_k : (TokenLine.ofText text)[k]? = some tl) :
    ∃ l ∈ Line.withinAll (SourceFile.ofText variant text).lines,
      l.lineNumber = k ∧ l.row = Row.ofTokenLine tl := by
  have rows := map_row_withinAll_lines variant text
  have here : (Row.ofText text)[k]? = some (Row.ofTokenLine tl) := by
    rw [Row.ofText, List.getElem?_map, at_k, Option.map_some]
  rw [← rows, List.getElem?_map] at here
  obtain ⟨l, at_k', row⟩ := Option.map_eq_some_iff.mp here
  have start := start_ofTokenLine at_k
  rw [← row, frame_row] at start
  exact ⟨l, List.mem_of_getElem? at_k', congrArg Location.line start, row⟩

/-- The numbers of the lines of a file count up from zero. -/
theorem map_lineNumber (variant : Variant) (text : List Char) :
    (Line.withinAll (SourceFile.ofText variant text).lines).map Line.lineNumber
      = List.range (physicalLines text).length := by
  have rows := map_row_withinAll_lines variant text
  generalize Line.withinAll (SourceFile.ofText variant text).lines = lines at rows ⊢
  have number : ∀ l : Line, l.lineNumber = l.row.shape.number := fun l => by
    rw [Line.lineNumber, ← frame_row]
    rfl
  have shapes : lines.map Line.lineNumber = (lineShapes text).map LineShape.number := by
    rw [← shapes_ofText, ← rows, List.map_map, List.map_map]
    exact List.map_congr_left fun l _ => number l
  rw [shapes, lineShapes]
  refine List.ext_getElem (by simp) fun k _ _ => ?_
  simp [LineShape.ofLine]

/-- A stretch of the lines of a file has consecutive numbers. -/
theorem exists_range'_of_infix (h : ms <:+: Line.withinAll (SourceFile.ofText variant text).lines) :
    ∃ first, ms.map Line.lineNumber = List.range' first ms.length := by
  obtain ⟨before, after, split⟩ := h
  have numbers := map_lineNumber variant text
  rw [← split, List.map_append, List.range_eq_range'] at numbers
  obtain ⟨k, -, front, -⟩ := List.range'_eq_append_iff.mp numbers.symm
  rw [List.map_append] at front
  obtain ⟨i, -, -, stretch⟩ := List.range'_eq_append_iff.mp front.symm
  refine ⟨0 + i * 1, ?_⟩
  have length : ms.length = k - i := by
    rw [← List.length_map Line.lineNumber, stretch, List.length_range']
  rw [length, stretch]

/-- The numbers of a stretch of the lines of a file increase. -/
theorem pairwise_of_infix (h : ms <:+: Line.withinAll (SourceFile.ofText variant text).lines) :
    ms.Pairwise fun a b => a.lineNumber < b.lineNumber := by
  obtain ⟨first, numbers⟩ := exists_range'_of_infix h
  rw [← List.pairwise_map (R := (· < ·)), numbers]
  exact List.pairwise_lt_range'

/-- An element stands in front of what is nested in it. -/
theorem lineNumber_lt_of_mem_nested
    (hl : l ∈ Line.withinAll (SourceFile.ofText variant text).lines)
    (hm : m ∈ Line.withinAll l.children) : l.lineNumber < m.lineNumber := by
  have order := pairwise_of_infix (Line.infix_within hl)
  rw [Line.within_eq] at order
  exact (List.pairwise_cons.mp order).1 m hm

/-- Of a line with what is nested in it, the last one has the greatest number. -/
theorem eq_last_or_lt (hl : l ∈ Line.withinAll (SourceFile.ofText variant text).lines)
    (hm : m ∈ l.within) : m = l.last ∨ m.lineNumber < l.last.lineNumber := by
  obtain ⟨front, split⟩ := List.getLast?_eq_some_iff.mp l.getLast?_within
  have order := pairwise_of_infix (Line.infix_within hl)
  rw [split] at hm order
  rcases List.mem_append.mp hm with before | last
  · exact .inr ((List.pairwise_append.mp order).2.2 m before _ (by simp))
  · exact .inl (List.mem_singleton.mp last)

/-- The lines of a block, with those nested in them, are a stretch of the lines of the file. -/
theorem infix_block {file : SourceFile} {b : Block} (hb : b ∈ file.blocks) :
    Line.withinAll b.lines <:+: Line.withinAll file.lines := by
  rw [SourceFile.blocks, List.mem_cons, List.mem_filterMap] at hb
  rcases hb with rfl | ⟨l, hl, block⟩
  · exact List.infix_refl _
  · cases l with
    | simple f body => exact absurd block (by simp [Line.block?])
    | element f t ls =>
      obtain rfl := Line.eq_of_block? block
      exact Line.infix_children hl

end

/-- The lines of a block are lines of the file. -/
theorem mem_lines_of_block {file : SourceFile} {b : Block} (hb : b ∈ file.blocks) {l : Line}
    (hl : l ∈ b.lines) : l ∈ Line.withinAll file.lines :=
  (infix_block hb).subset (Line.mem_withinAll hl)

/-- What is nested in an element does not end in a blank line. -/
theorem isBlank_last {variant : Variant} {text : List Char} (l : Line)
    (hl : l ∈ Line.withinAll (SourceFile.ofText variant text).lines) (content : l.isBlank = false) :
    l.last.isBlank = false := by
  cases last : l.children.getLast? with
  | none =>
    rw [Line.last_of_childless (List.getLast?_eq_none_iff.mp last)]
    exact content
  | some c =>
    -- The last line is the last one of the last child, which is not blank itself.
    have child : c ∈ l.children := List.mem_of_getLast? last
    have here : c ∈ Line.withinAll (SourceFile.ofText variant text).lines :=
      (Line.infix_children hl).subset (Line.mem_withinAll child)
    rw [Line.last_of_getLast? last]
    exact isBlank_last c here (last_of_within hl last).2
termination_by sizeOf l
decreasing_by exact l.sizeOf_lt_of_mem_children child

end OffsideMarkup
