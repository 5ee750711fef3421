/-
OffsideMarkup.Proofs.BreakIndependence — which line breaks a text has makes no difference.

A text with carriage returns, Unicode separators or any mixture of them is shown like the text with
line feeds in their place (`break_independence`). Only bytes tell the two apart, those of findings
and those that nobody sees: how long a node is that crosses a break, and where it stops.

The two texts have the same token lines but for the ends of the lines and where they start in bytes
(`TokenLine.Twins`). So their rows are twins (`twins_rows`), which is all that nesting looks at, and
the lines are nested alike (`Line.twins_nest`). What is shown of a file is collected by walks over
its lines, and for each of them there is one induction over lines that are twins; what it needs of a
single line is in `RowPlace`.

Under the cursor the two files have different nodes: a composite node that crosses a break is longer
in one of them, and it may win against another one there and lose here. That does not show, since
the cursor has nothing to say about composite nodes, and of the leaves the same are found
(`targets`).
-/
import OffsideMarkup.Proofs.HighlightCover
import OffsideMarkup.Proofs.RowPlace

namespace OffsideMarkup

/-! ## 1. The same line in two texts -/

/-- Two frames around the same line by itself, with breaks of their own at its end. -/
structure Frame.Agrees (f f' : Frame) : Prop where
  start : f'.start = f.start
  indent : f'.indent = f.indent
  ending : f'.endOfLine.start = f.endOfLine.start
  kind : f'.endOfLine.kind = f.endOfLine.kind
  ends : f.endOfLine.kind.endsLine = true
  findings : f'.findings.map Diagnostic.withoutBytes = f.findings.map Diagnostic.withoutBytes

/-- The same line as it is found in two texts, at the same number. -/
inductive Row.Twins : Row → Row → Prop
  | simple {f f' : Frame} {base base' : Location} (b : Body) (line : base.line = base'.line)
      (frames : f.Agrees f') :
      Twins (.simple (f.shift base) (b.shift base)) (.simple (f'.shift base') (b.shift base'))
  | element {f f' : Frame} {base base' : Location} (t : Tag) (line : base.line = base'.line)
      (frames : f.Agrees f') :
      Twins (.element (f.shift base) (t.shift base)) (.element (f'.shift base') (t.shift base'))

theorem TokenLine.start_unify (l : TokenLine) : l.unify.start = l.start := by
  obtain ⟨indent, body, stop⟩ := l
  cases indent with
  | some t => rfl
  | none => cases body <;> rfl

/-- Token lines that are twins are read as twins. -/
theorem TokenLine.Twins.row {l l' : TokenLine} (h : l.Twins l') :
    (Row.ofTokenLine l).Twins (Row.ofTokenLine l') := by
  obtain ⟨own, base, base', line, rfl, rfl, p, e, reads⟩ := h
  have ends : own.stop.kind = .lineBreak ∨ own.stop.lexeme = [] :=
    reads.stop_cases.2.imp And.left fun atEnd => atEnd.2.1
  have content := Reader.blind_content own.stop own.unify.stop own.body (endsAlike_unify ends)
  have frames : (Row.ofTokenLine own).frame.Agrees (Row.ofTokenLine own.unify).frame := by
    rw [frame_ofTokenLine, frame_ofTokenLine, own.start_unify]
    exact ⟨rfl, rfl, rfl, rfl, reads.ends, content.findings⟩
  rw [Row.ofTokenLine_shift, Row.ofTokenLine_shift]
  rw [Row.ofTokenLine, Row.ofTokenLine] at frames ⊢
  have value : (Reader.content own.unify.stop own.unify.body).value
      = (Reader.content own.stop own.body).value := content.value
  rw [value] at frames ⊢
  generalize (Reader.content own.stop own.body).value = c at frames ⊢
  cases c with
  | element t => exact .element t line frames
  | simple b => exact .simple b line frames

/-- The rows of a text, and those of the text with line feeds for its breaks. -/
theorem twins_rows (text : List Char) :
    List.Forall₂ Row.Twins (Row.ofText text) (Row.ofText (unifyBreaks text)) := by
  rw [Row.ofText, Row.ofText, List.forall₂_map_left_iff, List.forall₂_map_right_iff]
  exact (twins_unifyBreaks text).imp fun l l' h => h.row

namespace Frame.Agrees

variable {f f' : Frame} {base base' : Location} (h : f.Agrees f')

include h

theorem level_shift : (f'.shift base').level = (f.shift base).level := by
  rw [Frame.shift_level, Frame.shift_level, Frame.level, Frame.level, h.indent]

variable (line : base.line = base'.line)

include line

theorem line_shift : (f'.shift base').start.line = (f.shift base).start.line := by
  show base'.line + f'.start.line = base.line + f.start.line
  rw [h.start, line]

theorem ending_shift :
    (f'.shift base').endOfLine.start.position = (f.shift base).endOfLine.start.position := by
  show (f'.endOfLine.start.shift base').position = (f.endOfLine.start.shift base).position
  rw [h.ending]
  exact congrArg (Position.mk · _) (congrArg (· + _) line.symm)

theorem findings_shift : (f'.shift base').findings.map Diagnostic.withoutBytes
    = (f.shift base).findings.map Diagnostic.withoutBytes :=
  Diagnostic.map_shift_congr line h.findings

theorem indent_shift : (f'.shift base').indent.map (·.extent.region)
    = (f.shift base).indent.map (·.extent.region) := by
  show (f'.indent.map (·.shift base')).map _ = (f.indent.map (·.shift base)).map _
  rw [h.indent, Option.map_map, Option.map_map]
  congr 1
  funext l
  rw [Function.comp_apply, Function.comp_apply, Leaf.shift_extent, Leaf.shift_extent,
    Extent.region_congr line]

end Frame.Agrees

namespace Row.Twins

variable {r r' : Row} {rows rows' : List Row}

theorem level (h : r.Twins r') : r'.level = r.level := by
  cases h with
  | simple b line frames => exact frames.level_shift
  | element t line frames => exact frames.level_shift

theorem isBlank (h : r.Twins r') : r'.isBlank = r.isBlank := by
  cases h with
  | simple b => exact (b.isBlank_shift).trans (b.isBlank_shift).symm
  | element => rfl

theorem ahead (h : List.Forall₂ Twins rows rows') : Row.ahead rows' = Row.ahead rows := by
  induction h with
  | nil => rfl
  | cons first _ ih => rw [Row.ahead, Row.ahead, first.isBlank, first.level, ih]

theorem blockLength (h : List.Forall₂ Twins rows rows') (level : Nat) :
    Row.blockLength level rows' = Row.blockLength level rows := by
  induction h with
  | nil => rfl
  | cons first later ih => rw [Row.blockLength, Row.blockLength, ahead (later.cons first), ih]

end Row.Twins

/-! ## 2. The same lines, nested -/

/-- The same lines as they are found in two texts, with the same lines nested in them. -/
inductive Line.Twins : List Line → List Line → Prop
  | nil : Twins [] []
  | simple {f f' : Frame} {base base' : Location} {ls ls' : List Line} (b : Body)
      (line : base.line = base'.line) (frames : f.Agrees f') (later : Twins ls ls') :
      Twins (.simple (f.shift base) (b.shift base) :: ls)
        (.simple (f'.shift base') (b.shift base') :: ls')
  | element {f f' : Frame} {base base' : Location} {inner inner' ls ls' : List Line} (t : Tag)
      (line : base.line = base'.line) (frames : f.Agrees f') (under : Twins inner inner')
      (later : Twins ls ls') :
      Twins (.element (f.shift base) (t.shift base) inner :: ls)
        (.element (f'.shift base') (t.shift base') inner' :: ls')

/-- Rows that are twins are nested alike: what nesting looks at is the same in both. -/
theorem Line.twins_nest {rows rows' : List Row} (h : List.Forall₂ Row.Twins rows rows') :
    Twins (nest rows) (nest rows') := by
  fun_induction nest rows generalizing rows' with
  | case1 =>
    cases h
    rw [nest]
    exact .nil
  | case2 f b rows ih =>
    cases h with
    | cons first later =>
      cases first with
      | simple b line frames =>
        rw [nest]
        exact .simple b line frames (ih later)
  | case3 f t rows level deeper n =>
    rename_i under behind
    cases h with
    | cons first later =>
      cases first with
      | element t line frames =>
        rw [nest, Row.Twins.ahead later, frames.level_shift, if_pos deeper,
          Row.Twins.blockLength later]
        exact .element t line frames (under (List.forall₂_take _ later))
          (behind (List.forall₂_drop _ later))
  | case4 f t rows level flat =>
    rename_i ih
    cases h with
    | cons first later =>
      cases first with
      | element t line frames =>
        rw [nest, Row.Twins.ahead later, frames.level_shift, if_neg flat]
        exact .element t line frames .nil (ih later)

theorem twins_lines (variant : Variant) (text : List Char) :
    Line.Twins (SourceFile.ofText variant text).lines
      (SourceFile.ofText variant (unifyBreaks text)).lines := Line.twins_nest (twins_rows text)

namespace Line.Twins

variable {ls ls' : List Line}

/-! ## 3. Findings -/

theorem isBlank_shift (f f' : Frame) (b : Body) (base base' : Location) :
    (Line.simple f' (b.shift base')).isBlank = (Line.simple f (b.shift base)).isBlank :=
  b.isBlank_shift.trans b.isBlank_shift.symm

theorem blockLevel (h : Twins ls ls') : Line.blockLevel ls' = Line.blockLevel ls := by
  induction h with
  | nil => rfl
  | @simple f f' base base' ls ls' b line frames later ih =>
    have own : (Line.simple (f'.shift base') (b.shift base')).level
        = (Line.simple (f.shift base) (b.shift base)).level := frames.level_shift
    rw [Line.blockLevel, Line.blockLevel, ih, own, isBlank_shift]
  | element t line frames under later => exact frames.level_shift

/-- The warnings about two lines show the same if the lines and the elements around them do. -/
theorem misplaced_congr (l l' : Line) {owner owner' : Option Tag} (level : Nat)
    (blank : l'.isBlank = l.isBlank) (own : l'.level = l.level)
    (indent : l'.frame.indent.map (·.extent.region) = l.frame.indent.map (·.extent.region))
    (tags : owner'.map (·.node.label.extent.region) = owner.map (·.node.label.extent.region)) :
    (Line.misplaced level owner' l').map Diagnostic.withoutBytes
      = (Line.misplaced level owner l).map Diagnostic.withoutBytes := by
  rw [misplaced, misplaced, blank, own]
  cases here : l.frame.indent with
  | none =>
    rw [here, Option.map_none, Option.map_eq_none_iff] at indent
    rw [indent]
  | some i =>
    rw [here, Option.map_some, Option.map_eq_some_iff] at indent
    obtain ⟨i', here', region⟩ := indent
    rw [here']
    dsimp only
    split
    · cases owner with
      | none =>
        obtain rfl := Option.map_eq_none_iff.mp tags
        simp [Diagnostic.withoutBytes, Diagnostic.ofExtent, region]
      | some t =>
        obtain ⟨t', rfl, around⟩ := Option.map_eq_some_iff.mp tags
        simp [Diagnostic.withoutBytes, Diagnostic.ofExtent, Diagnostic.withRelated,
          Related.withoutBytes, region, around]
    · rfl

theorem diagnosticsOf (h : Twins ls ls') (level : Nat) {owner owner' : Option Tag}
    (tags : owner'.map (·.node.label.extent.region) = owner.map (·.node.label.extent.region)) :
    (Line.diagnosticsOf level owner' ls').map Diagnostic.withoutBytes
      = (Line.diagnosticsOf level owner ls).map Diagnostic.withoutBytes := by
  induction h generalizing level owner owner' with
  | nil => rfl
  | @simple f f' base base' ls ls' b line frames later ih =>
    have warning := misplaced_congr (.simple (f.shift base) (b.shift base))
      (.simple (f'.shift base') (b.shift base')) level (isBlank_shift ..)
      frames.level_shift (frames.indent_shift line) tags
    rw [Line.diagnosticsOf, Line.diagnosticsOf, Line.diagnostics, Line.diagnostics]
    simp only [List.map_append]
    rw [warning, frames.findings_shift line, ih level tags]
  | @element f f' base base' inner inner' ls ls' t line frames under later ihUnder ihLater =>
    have warning := misplaced_congr (.element (f.shift base) (t.shift base) inner)
      (.element (f'.shift base') (t.shift base') inner') level rfl
      frames.level_shift (frames.indent_shift line) tags
    have enclosing : (some (t.shift base')).map (·.node.label.extent.region)
        = (some (t.shift base)).map (·.node.label.extent.region) :=
      congrArg some (t.region_congr line).symm
    have nested := ihUnder (Line.blockLevel inner) enclosing
    rw [Line.diagnosticsOf, Line.diagnosticsOf, Line.diagnostics, Line.diagnostics]
    simp only [List.map_append]
    rw [warning, frames.findings_shift line, under.blockLevel, nested, ihLater level tags]

/-! ## 4. Highlights, hints, folds and symbols -/

theorem highlightsOf (h : Twins ls ls') : Line.highlightsOf ls' = Line.highlightsOf ls := by
  induction h with
  | nil => rfl
  | simple b line frames later ih =>
    rw [Line.highlightsOf, Line.highlightsOf, Line.highlights, Line.highlights,
      Highlight.ofBody_congr line, ih]
  | element t line frames under later ihUnder ihLater =>
    rw [Line.highlightsOf, Line.highlightsOf, Line.highlights, Line.highlights,
      Highlight.ofTag_congr line, ihUnder, ihLater]

theorem keyHintsOf (h : Twins ls ls') : Line.keyHintsOf ls' = Line.keyHintsOf ls := by
  induction h with
  | nil => rfl
  | simple b line frames later ih =>
    rw [Line.keyHintsOf, Line.keyHintsOf, Line.keyHints, Line.keyHints, b.keyHints_congr line, ih]
  | element t line frames under later ihUnder ihLater =>
    rw [Line.keyHintsOf, Line.keyHintsOf, Line.keyHints, Line.keyHints, ihUnder, ihLater]

/-- The frame of the last line starts and ends where the other does. -/
theorem lastFrameOf (h : Twins ls ls') {g g' : Frame} (number : g'.start.line = g.start.line)
    (ending : g'.endOfLine.start.position = g.endOfLine.start.position) :
    (Line.lastFrameOf g' ls').start.line = (Line.lastFrameOf g ls).start.line
      ∧ (Line.lastFrameOf g' ls').endOfLine.start.position
        = (Line.lastFrameOf g ls).endOfLine.start.position := by
  induction h generalizing g g' with
  | nil => exact ⟨number, ending⟩
  | simple b line frames later ih =>
    exact ih (frames.line_shift line) (frames.ending_shift line)
  | element t line frames under later ihUnder ihLater =>
    have last := ihUnder (frames.line_shift line) (frames.ending_shift line)
    exact ihLater last.1 last.2

theorem isEmpty (h : Twins ls ls') : ls'.isEmpty = ls.isEmpty := by cases h <;> rfl

/-- A run goes on with a line by its key and its number. -/
theorem run_congr (l l' : Line) (key : l'.runKey? = l.runKey?)
    (number : l'.lineNumber = l.lineNumber) (run : Option Run) :
    Run.closed run l' = Run.closed run l ∧ Run.next? run l' = Run.next? run l := by
  constructor
  · cases run with
    | none => rfl
    | some r => rw [Run.closed, Run.closed, key]
  · rw [Run.next?, Run.next?, key, number]

theorem blockFolds (h : Twins ls ls') (run : Option Run) :
    Line.blockFolds run ls' = Line.blockFolds run ls := by
  induction h generalizing run with
  | nil => rfl
  | @simple f f' base base' ls ls' b line frames later ih =>
    have key : (Line.simple (f'.shift base') (b.shift base')).runKey?
        = (Line.simple (f.shift base) (b.shift base)).runKey? :=
      (Line.runKey?_shift _ f b).trans (Line.runKey?_shift _ f b).symm
    have run := run_congr _ _ key (frames.line_shift line)
    rw [Line.blockFolds, Line.blockFolds, (run _).1, (run _).2, ih]
    rfl
  | @element f f' base base' inner inner' ls ls' t line frames under later ihUnder ihLater =>
    have run := run_congr (.element (f.shift base) (t.shift base) inner)
      (.element (f'.shift base') (t.shift base') inner') rfl (frames.line_shift line)
    have last := under.lastFrameOf (frames.line_shift line) (frames.ending_shift line)
    rw [Line.blockFolds, Line.blockFolds, (run _).1, (run _).2, ihLater, Line.folds, Line.folds,
      under.isEmpty, ihUnder, frames.line_shift line, last.1]

theorem declare_congr {base base' : Location} (line : base.line = base'.line)
    {start start' : Location} {last last' : Frame} (number : start'.line = start.line)
    (ending : last'.endOfLine.start.position = last.endOfLine.start.position) (name : Leaf)
    (kind : SymbolKind) (children : List Symbol) :
    Symbol.declare start' last' (name.shift base') kind children
      = Symbol.declare start last (name.shift base) kind children := by
  rw [Symbol.declare, Symbol.declare, number, ending, name.contentRegion_congr line]
  rfl

theorem symbolsOf (h : Twins ls ls') : Line.symbolsOf ls' = Line.symbolsOf ls := by
  induction h with
  | nil => rfl
  | @simple f f' base base' ls ls' b line frames later ih =>
    have own : (Line.simple (f'.shift base') (b.shift base')).symbols
        = (Line.simple (f.shift base) (b.shift base)).symbols := by
      match b with
      | .mountingPoint sigil name =>
        exact congrArg (fun s => [s]) (declare_congr line (frames.line_shift line)
          (frames.ending_shift line) name _ [])
      | .comment _ => rfl
      | .attribute _ => rfl
      | .handler _ => rfl
      | .text _ _ => rfl
    rw [Line.symbolsOf, Line.symbolsOf, own, ih]
  | @element f f' base base' inner inner' ls ls' t line frames under later ihUnder ihLater =>
    have last := under.lastFrameOf (frames.line_shift line) (frames.ending_shift line)
    have own := declare_congr line (frames.line_shift line) last.2 t.name .element
      (Line.symbolsOf inner)
    rw [Line.symbolsOf, Line.symbolsOf, Line.symbols, Line.symbols, ihUnder, ihLater]
    exact congrArg (fun s => [s] ++ _) own

end Line.Twins

/-! ## 5. Under the cursor -/

theorem Reader.Content.nodes_row (c : Reader.Content) (f : Frame) :
    (c.row f).nodes = f.around c.nodes := by cases c <;> rfl

namespace Line.Twins

variable {ls ls' : List Line}

theorem isSolid_of_endsLine {s : Spot} (h : s.label.kind.endsLine = true) : s.isSolid = false := by
  rw [Spot.isSolid]
  generalize s.label.kind = k at h ⊢
  cases k <;> first | exact absurd h (by decide) | simp [Kind.isTrivia]

/-- The end of a line is never under the cursor, so only leaves in front of it may be. -/
theorem filter_isTarget_row (c : Reader.Content) {f : Frame} (base : Location) (owner : Option Tag)
    (ends : f.endOfLine.kind.endsLine = true) :
    ((Rose.preorderAll ((c.row f).shift base).nodes).map
        (⟨·, (c.row f).shift base, owner⟩)).filter Spot.isTarget
      = ((Rose.preorderAll (f.indent.toList.map (·.node .part) ++ c.nodes)).filter
          fun l => Spot.isTarget ⟨l, c.row f, owner⟩).map
        fun l => ⟨l.shift base, (c.row f).shift base, owner⟩ := by
  have ending : Spot.isTarget
      ⟨(f.endOfLine.node .part).label.shift base, (c.row f).shift base, owner⟩ = false := by
    rw [Spot.isTarget, isSolid_of_endsLine (by exact ends), Bool.and_false]
  have last : (((f.endOfLine.node .part).preorder.map (·.shift base)).map
      (⟨·, (c.row f).shift base, owner⟩)).filter Spot.isTarget = [] :=
    List.filter_cons_of_neg (Bool.eq_false_iff.mp ending)
  rw [Row.nodes_shift, ← Node.shiftAll_eq_map, Node.preorderAll_shift, c.nodes_row, Frame.around,
    Rose.preorderAll_eq_flatMap, List.flatMap_append, List.flatMap_singleton,
    ← Rose.preorderAll_eq_flatMap, List.map_append, List.map_append, List.filter_append, last,
    List.append_nil, List.map_map, List.filter_map]
  rfl

theorem targets_row (c : Reader.Content) {f f' : Frame} {base base' : Location}
    (line : base.line = base'.line) (frames : f.Agrees f') {owner owner' : Option Tag}
    (names : owner'.map (·.name.text) = owner.map (·.name.text)) :
    List.Forall₂ Spot.Alike
      (((Rose.preorderAll ((c.row f).shift base).nodes).map
        (⟨·, (c.row f).shift base, owner⟩)).filter Spot.isTarget)
      (((Rose.preorderAll ((c.row f').shift base').nodes).map
        (⟨·, (c.row f').shift base', owner'⟩)).filter Spot.isTarget) := by
  rw [filter_isTarget_row c base owner frames.ends,
    filter_isTarget_row c base' owner' (frames.kind ▸ frames.ends), frames.indent,
    List.forall₂_map_left_iff, List.forall₂_map_right_iff]
  exact List.forall₂_same.mpr fun l _ => Spot.alike_shift line names c f f' l

/-- Of lines that are twins the same leaves may be under the cursor. -/
theorem targets (h : Twins ls ls') {owner owner' : Option Tag}
    (names : owner'.map (·.name.text) = owner.map (·.name.text)) :
    List.Forall₂ Spot.Alike ((Line.spotsOf owner ls).filter Spot.isTarget)
      ((Line.spotsOf owner' ls').filter Spot.isTarget) := by
  induction h generalizing owner owner' with
  | nil => exact .nil
  | simple b line frames later ih =>
    rw [Line.spotsOf, Line.spotsOf, Line.spots, Line.spots, List.filter_append, List.filter_append]
    refine List.rel_append ?_ (ih names)
    exact targets_row (.simple b) line frames names
  | @element f f' base base' inner inner' ls ls' t line frames under later ihUnder ihLater =>
    have enclosing : (some (t.shift base')).map (·.name.text)
        = (some (t.shift base)).map (·.name.text) := rfl
    rw [Line.spotsOf, Line.spotsOf, Line.spots, Line.spots]
    simp only [List.filter_append]
    refine List.rel_append (List.rel_append ?_ (ihUnder enclosing)) (ihLater names)
    exact targets_row (.element t) line frames names

end Line.Twins

/-! ## 6. Files -/

/-- An editor is shown the same of two files, bytes aside: the findings in their order, the pieces,
the folds, the symbols and the hints, and at every position what completes it, what the host is
asked to complete it with, and what explains it. -/
structure SourceFile.LooksLike (f g : SourceFile) : Prop where
  diagnostics : f.diagnostics.map Diagnostic.withoutBytes
    = g.diagnostics.map Diagnostic.withoutBytes
  highlights : f.highlights = g.highlights
  folds : f.folds = g.folds
  symbols : f.symbols = g.symbols
  keyHints : f.keyHints = g.keyHints
  modifiersAt : ∀ p, f.modifiersAt p = g.modifiersAt p
  targetAt? : ∀ p, f.targetAt? p = g.targetAt? p
  hoverAt? : ∀ p, f.hoverAt? p = g.hoverAt? p

/-- Which line breaks a text has makes no difference to what is shown of it. -/
theorem break_independence (variant : Variant) (text : List Char) :
    (SourceFile.ofText variant (unifyBreaks text)).LooksLike (SourceFile.ofText variant text) := by
  have lines := twins_lines variant text
  have leaves : List.Forall₂ Spot.Alike (SourceFile.ofText variant text).targets
      (SourceFile.ofText variant (unifyBreaks text)).targets := lines.targets rfl
  exact {
    diagnostics := lines.diagnosticsOf 0 rfl
    highlights := lines.highlightsOf
    folds := lines.blockFolds none
    symbols := lines.symbolsOf
    keyHints := lines.keyHintsOf
    modifiersAt := SourceFile.modifiersAt_congr leaves rfl
    targetAt? := SourceFile.targetAt?_congr leaves rfl
    hoverAt? := SourceFile.hoverAt?_congr leaves }

end OffsideMarkup
