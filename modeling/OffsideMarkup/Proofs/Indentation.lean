/-
OffsideMarkup.Proofs.Indentation — how far the lines of a block are indented, and what is said about
it.

A block is the lines of a file, or the lines under one element. It has a level, which is 0 for the
file and the indentation of the first line with content for an element. What holds of blocks is less
than that all lines of one are indented alike: a line may come back to a column between two open
blocks, and then it stays in the outer one and is indented too far for it. It is never indented less
(`Block.Lawful`), and one that is indented further is warned about, once (`indentation_law`).

`Line.placed` gives each line of a file with the block it stands in, in document order. Over that
list the findings are read off line by line: a line has at most one warning, in front of what its
own grammar says, and what its grammar says is no warning.
-/
import Mathlib.Data.List.Forall2
import OffsideMarkup.Proofs.BlockLines
import OffsideMarkup.Proofs.BuilderTotal
import OffsideMarkup.Proofs.Findings
import OffsideMarkup.Proofs.MessageText
import OffsideMarkup.Proofs.OffsideStack

namespace OffsideMarkup

/-! ## 1. Blocks -/

/-- Lines that stand side by side. -/
structure Block where
  /-- The element that they stand under; none is the file. -/
  owner : Option (Frame × Tag)
  level : Nat
  lines : List Line

/-- The block under a line, if it is an element with lines under it. -/
def Line.block? : Line → Option Block
  | .element f t (l :: ls) => some ⟨some (f, t), Line.blockLevel (l :: ls), l :: ls⟩
  | _ => none

/-- The block that the lines of a file are. -/
def SourceFile.block (f : SourceFile) : Block := ⟨none, 0, f.lines⟩

/-- All blocks of a file. -/
def SourceFile.blocks (f : SourceFile) : List Block :=
  f.block :: (Line.withinAll f.lines).filterMap Line.block?

mutual
/-- A line of a block and the lines nested in it, each with the block it stands in. -/
def Line.placed (b : Block) : Line → List (Block × Line)
  | .simple f body => [(b, .simple f body)]
  | .element f t ls =>
    (b, .element f t ls) :: Line.placedAll ⟨some (f, t), Line.blockLevel ls, ls⟩ ls

def Line.placedAll (b : Block) : List Line → List (Block × Line)
  | [] => []
  | l :: ls => l.placed b ++ Line.placedAll b ls
end

/-- The lines of a file in document order, each with its block. -/
def SourceFile.placed (f : SourceFile) : List (Block × Line) := Line.placedAll f.block f.lines

theorem map_snd_placedAll (b : Block) (ls : List Line) :
    (Line.placedAll b ls).map (·.2) = Line.withinAll ls := by
  match ls with
  | [] => rfl
  | .simple f body :: ls =>
    rw [Line.placedAll, List.map_append, map_snd_placedAll b ls, Line.placed, Line.withinAll,
      Line.within]
    rfl
  | .element f t inner :: ls =>
    rw [Line.placedAll, List.map_append, map_snd_placedAll b ls, Line.placed, List.map_cons,
      map_snd_placedAll _ inner, Line.withinAll, Line.within]
termination_by sizeOf ls

theorem Line.eq_of_block? {f : Frame} {t : Tag} {inner : List Line} {b : Block}
    (h : (Line.element f t inner).block? = some b) :
    b = ⟨some (f, t), Line.blockLevel inner, inner⟩ := by
  cases inner with
  | nil => exact absurd h (by simp [block?])
  | cons m ms => exact (Option.some.inj h).symm

/-- A line under an element stands in the block of the element. -/
theorem Line.block?_element {f : Frame} {t : Tag} {inner : List Line} {b : Block} {l : Line} :
    (Line.element f t inner).block? = some b ∧ l ∈ b.lines
      ↔ b = ⟨some (f, t), Line.blockLevel inner, inner⟩ ∧ l ∈ inner := by
  constructor
  · rintro ⟨h, hl⟩
    obtain rfl := Line.eq_of_block? h
    exact ⟨rfl, hl⟩
  · rintro ⟨rfl, hl⟩
    cases inner with
    | nil => simp at hl
    | cons m ms => exact ⟨rfl, hl⟩

/-- A line stands in the block around it, or in one that an element among these lines has. -/
theorem mem_placedAll (b c : Block) (ls : List Line) (l : Line) :
    (c, l) ∈ Line.placedAll b ls ↔
      c = b ∧ l ∈ ls ∨ ∃ m ∈ Line.withinAll ls, m.block? = some c ∧ l ∈ c.lines := by
  match ls with
  | [] => simp [Line.placedAll, Line.withinAll]
  | .simple f body :: ls =>
    have later := mem_placedAll b c ls l
    have own : (Line.simple f body).block? = none := rfl
    simp only [Line.placedAll, Line.placed, Line.withinAll, Line.within, List.singleton_append,
      List.mem_cons, later, or_and_right, exists_or, exists_eq_left, Prod.mk.injEq, own,
      reduceCtorEq, false_and, false_or, and_or_left, or_assoc]
  | .element f t inner :: ls =>
    have later := mem_placedAll b c ls l
    have under := mem_placedAll ⟨some (f, t), Line.blockLevel inner, inner⟩ c inner l
    simp only [Line.placedAll, Line.placed, Line.withinAll, Line.within, List.mem_append,
      List.mem_cons, later, under, or_and_right, exists_or, exists_eq_left, Prod.mk.injEq,
      Line.block?_element, and_or_left]
    exact iff_of_eq (by ac_rfl)
termination_by sizeOf ls

/-- The lines that are placed are those of the blocks. -/
theorem mem_placed (f : SourceFile) (b : Block) (l : Line) :
    (b, l) ∈ f.placed ↔ b ∈ f.blocks ∧ l ∈ b.lines := by
  rw [SourceFile.placed, mem_placedAll, SourceFile.blocks, List.mem_cons, List.mem_filterMap]
  constructor
  · rintro (⟨rfl, hl⟩ | ⟨m, hm, block, hl⟩)
    · exact ⟨.inl rfl, hl⟩
    · exact ⟨.inr ⟨m, hm, block⟩, hl⟩
  · rintro ⟨rfl | ⟨m, hm, block⟩, hl⟩
    · exact .inl ⟨rfl, hl⟩
    · exact .inr ⟨m, hm, block, hl⟩

/-! ## 2. Levels -/

/-- What holds of every block: its lines with content are indented at least as far as it says, and
under an element the first of them exactly so, which is further than the element. -/
structure Block.Lawful (b : Block) : Prop where
  inside : ∀ l ∈ b.lines, l.isBlank = false → b.level ≤ l.level
  first : ∀ o ∈ b.owner, (b.lines.find? (!·.isBlank)).map Line.level = some b.level
  deeper : ∀ o ∈ b.owner, o.1.level < b.level

theorem Line.blockLevel_eq (ls : List Line) :
    Line.blockLevel ls = ((ls.find? (!·.isBlank)).map Line.level).getD 0 := by
  induction ls with
  | nil => rfl
  | cons l ls ih =>
    rw [Line.blockLevel]
    cases blank : l.isBlank with
    | true => rw [if_pos rfl, ih, List.find?_cons_of_neg (by simp [blank])]
    | false => rw [if_neg (by simp), List.find?_cons_of_pos (by simp [blank])]; rfl

/-- Where a level is not 0, there is a line that has it. -/
theorem Line.find?_of_blockLevel {ls : List Line} (pos : 0 < Line.blockLevel ls) :
    (ls.find? (!·.isBlank)).map Line.level = some (Line.blockLevel ls) := by
  rw [blockLevel_eq] at pos ⊢
  cases found : ls.find? (!·.isBlank) with
  | none => simp [found] at pos
  | some l => rfl

/-- The rows cut off under an element are a lawful block. -/
theorem lawful_of_deeper {f : Frame} (t : Tag) {rows : List Row}
    (deeper : f.level < Row.ahead rows) :
    let ls := Line.nest (rows.take (Row.blockLength (Row.ahead rows) rows))
    Block.Lawful ⟨some (f, t), Line.blockLevel ls, ls⟩ := by
  intro ls
  have level : Line.blockLevel ls = Row.ahead rows := by
    rw [Line.blockLevel_nest, Row.ahead_take (Nat.le_refl _)]
  refine ⟨fun l hl content => ?_, fun o _ => ?_, ?_⟩
  · have row := Row.le_level_of_block l.row (row_mem_of_mem_nest hl) (by rw [isBlank_row, content])
    rw [Row.level, frame_row] at row
    rw [level]
    exact row
  · exact Line.find?_of_blockLevel (by rw [level]; omega)
  · rintro o ho
    obtain rfl := Option.some.inj ho
    rw [level]
    exact deeper

/-- Nesting makes lawful blocks only. -/
theorem lawful_nest {rows : List Row} :
    ∀ l ∈ Line.withinAll (Line.nest rows), ∀ b ∈ l.block?, b.Lawful := by
  fun_induction Line.nest rows with
  | case1 => simp [Line.withinAll]
  | case2 f body rows ih =>
    rw [Line.withinAll, Line.within, List.singleton_append]
    exact List.forall_mem_cons.mpr ⟨by simp [Line.block?], ih⟩
  | case3 f t rows level deeper n ihBlock ihRest =>
    rw [Line.withinAll, Line.within, List.cons_append]
    refine List.forall_mem_cons.mpr ⟨fun b hb => ?_, List.forall_mem_append.mpr ⟨ihBlock, ihRest⟩⟩
    rw [Line.eq_of_block? hb]
    exact lawful_of_deeper t deeper
  | case4 f t rows level flat ih =>
    rw [Line.withinAll, Line.within, Line.withinAll, List.singleton_append]
    exact List.forall_mem_cons.mpr ⟨by simp [Line.block?], ih⟩

theorem lawful_blocks (variant : Variant) (text : List Char) :
    ∀ b ∈ (SourceFile.ofText variant text).blocks, b.Lawful := by
  refine List.forall_mem_cons.mpr ⟨⟨fun _ _ _ => Nat.zero_le _, ?_, ?_⟩, fun b hb => ?_⟩
  · intro o ho
    exact absurd ho (by simp [SourceFile.block])
  · intro o ho
    exact absurd ho (by simp [SourceFile.block])
  · obtain ⟨l, hl, block⟩ := List.mem_filterMap.mp hb
    exact lawful_nest l hl b block

/-! ## 3. Warnings -/

/-- A line with content that is indented further than its block. -/
def Block.strays (b : Block) (l : Line) : Bool := !l.isBlank && decide (b.level < l.level)

/-- The warning about a line of a block: it is about the indentation, names both widths, and points
at the tag of the element whose block it is. -/
structure Diagnostic.Warns (d : Diagnostic) (b : Block) (l : Line) : Prop where
  code : d.code = 3
  place : ∃ i ∈ l.frame.indent, d.span = i.extent.span ∧ d.region = i.extent.region
  text : d.text = "Unexpected indentation: expected " ++ toString b.level ++ " columns, found "
    ++ toString l.level ++ "."
  related : d.related = b.owner.toList.map fun o =>
    ⟨o.2.node.label.extent.span, o.2.node.label.extent.region, "enclosing element declared here"⟩

/-- A line without indentation strays from no block. -/
theorem Block.strays_of_none {b : Block} {l : Line} (h : l.frame.indent = none) :
    b.strays l = false := by
  have level : l.level = 0 := by rw [Line.level, Frame.level, h]; rfl
  simp [strays, level]

/-- A line is warned about once if it strays, and not at all otherwise. -/
theorem warns_misplaced (b : Block) (l : Line) :
    List.Forall₂ (fun d x => Diagnostic.Warns d x.1 x.2)
      (Line.misplaced b.level (b.owner.map (·.2)) l) ([(b, l)].filter fun x => x.1.strays x.2) := by
  rw [Line.misplaced, List.filter_singleton]
  cases indent : l.frame.indent with
  | none =>
    rw [Block.strays_of_none indent]
    exact .nil
  | some i =>
    by_cases strays : b.level < l.level ∧ ¬l.isBlank
    · have here : b.strays l = true := by simpa [Block.strays, and_comm] using strays
      have text : (Diagnostic.ofExtent .unexpectedIndentation [toString b.level, toString l.level]
          i.extent).text = "Unexpected indentation: expected " ++ toString b.level
            ++ " columns, found " ++ toString l.level ++ "." :=
        Message.format_unexpectedIndentation _ _
      dsimp only
      rw [if_pos strays, here]
      cases owner : b.owner with
      | none => exact .cons ⟨rfl, ⟨i, indent, rfl, rfl⟩, text, by rw [owner]; rfl⟩ .nil
      | some o => exact .cons ⟨rfl, ⟨i, indent, rfl, rfl⟩, text, by rw [owner]; rfl⟩ .nil
    · have here : b.strays l = false := by simpa [Block.strays, and_comm] using strays
      dsimp only
      rw [if_neg strays, here]
      exact .nil

/-- Of what is found on a line by itself nothing is a warning, so the warning in front is all. -/
theorem filter_misplaced (level : Nat) (owner : Option Tag) {l : Line}
    (plain : ∀ d ∈ l.frame.findings, d.code ≠ 3) :
    (Line.misplaced level owner l).filter (·.code == 3)
      ++ l.frame.findings.filter (·.code == 3) = Line.misplaced level owner l := by
  have all : (Line.misplaced level owner l).filter (·.code == 3) = Line.misplaced level owner l :=
    List.filter_eq_self.mpr fun d hd => by rw [Diagnostic.code, message_misplaced d hd]; rfl
  have none : l.frame.findings.filter (·.code == 3) = [] :=
    List.filter_eq_nil_iff.mpr fun d hd => by simpa using plain d hd
  rw [all, none, List.append_nil]

/-- The warnings about nested lines are those about the lines that stray from their blocks, one for
each, in the same order. -/
theorem warns_diagnosticsOf (b : Block) (ls : List Line)
    (plain : ∀ l ∈ Line.withinAll ls, ∀ d ∈ l.frame.findings, d.code ≠ 3) :
    List.Forall₂ (fun d x => Diagnostic.Warns d x.1 x.2)
      ((Line.diagnosticsOf b.level (b.owner.map (·.2)) ls).filter (·.code == 3))
      ((Line.placedAll b ls).filter fun x => x.1.strays x.2) := by
  match ls with
  | [] => exact .nil
  | .simple f body :: ls =>
    rw [Line.withinAll, Line.within, List.singleton_append, List.forall_mem_cons] at plain
    have later := warns_diagnosticsOf b ls plain.2
    have own := filter_misplaced b.level (b.owner.map (·.2)) plain.1
    have here := own ▸ warns_misplaced b (.simple f body)
    simp only [Line.diagnosticsOf, Line.diagnostics, Line.placedAll, Line.placed,
      List.filter_append]
    exact List.rel_append here later
  | .element f t inner :: ls =>
    rw [Line.withinAll, Line.within, List.cons_append, List.forall_mem_cons,
      List.forall_mem_append] at plain
    have later := warns_diagnosticsOf b ls plain.2.2
    have under := warns_diagnosticsOf ⟨some (f, t), Line.blockLevel inner, inner⟩ inner plain.2.1
    have own := filter_misplaced b.level (b.owner.map (·.2)) plain.1
    have here := own ▸ warns_misplaced b (.element f t inner)
    rw [Line.placedAll, Line.placed, ← List.singleton_append (x := (b, _))]
    simp only [Line.diagnosticsOf, Line.diagnostics, List.filter_append]
    exact List.rel_append (List.rel_append here under) later
termination_by sizeOf ls

/-! ## 4. Files -/

/-- Every line of a file stands in one block. The blocks are lawful: no line with content is
indented less than its block, and the block of an element is indented further than the element. The
warnings about indentation are those about the lines with content that are indented further than
their blocks, one for each line and in document order. The builder reports the same. -/
theorem indentation_law (variant : Variant) (text : List Char) :
    let file := SourceFile.ofText variant text
    file.placed.map (·.2) = Line.withinAll file.lines
      ∧ (∀ b l, (b, l) ∈ file.placed ↔ b ∈ file.blocks ∧ l ∈ b.lines)
      ∧ (∀ b ∈ file.blocks, b.Lawful)
      ∧ List.Forall₂ (fun d x => Diagnostic.Warns d x.1 x.2) (file.diagnostics.filter (·.code == 3))
        (file.placed.filter fun x => x.1.strays x.2)
      ∧ (byteLength text < wordBound → file.root.size ≤ wordBound →
        ∃ b, build text = Part.some (.ok (Node.rootAt 0 file.root, b))
          ∧ b.findings = file.diagnostics) := by
  intro file
  have plain : ∀ l ∈ Line.withinAll file.lines, ∀ d ∈ l.frame.findings, d.code ≠ 3 := by
    intro l hl d hd warning
    have row : l.row ∈ Row.ofText text :=
      map_row_withinAll_lines variant text ▸ List.mem_map_of_mem hl
    have error := isError_findings row d (by rwa [frame_row])
    rw [Diagnostic.code] at warning
    rw [Diagnostic.isError, Diagnostic.severity] at error
    cases message : d.message <;> rw [message] at warning error <;>
      first | exact absurd warning (by decide) | exact absurd error (by decide)
  refine ⟨map_snd_placedAll _ _, mem_placed file, lawful_blocks variant text,
    warns_diagnosticsOf file.block file.lines plain, fun short few => ?_⟩
  obtain ⟨b, built, -, findings⟩ := exists_build variant text short few
  exact ⟨b, built, findings⟩

end OffsideMarkup
