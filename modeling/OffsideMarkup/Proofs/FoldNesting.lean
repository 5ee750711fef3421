/-
OffsideMarkup.Proofs.FoldNesting — folds lie apart from each other or inside one another.

Elements fold and runs fold, each by a rule of its own. That their folds never cut into each other is
a matter of the lines that a list of lines takes up in the text: they follow one another, so each
line with what is nested in it has a stretch of them, and a run has one.

* `Laminar` — folds that lie between two numbers, any two of them apart or nested.
* `Laminar.append`, `Laminar.cons` — two stretches of lines side by side keep this, and so does one
  fold around a whole stretch.
* `laminar_blockFolds` — so the folds of a block are laminar, by induction on its lines and those
  under them. The open run of `Line.blockFolds` ends where the lines still to come begin.
-/
import Mathlib.Order.CompletePartialOrder
import Mathlib.Order.Interval.Set.Disjoint
import OffsideMarkup.Proofs.EndedLine
import OffsideMarkup.Proofs.FoldRuns

namespace OffsideMarkup

/-! ## 1. Laminar folds -/

/-- The numbers of the lines that a fold hides, with the one that stays. -/
def Fold.lines (fold : Fold) : Set Nat := Set.Icc fold.startLine fold.endLine

/-- Two folds have no line in common, or one of them has all lines of the other. -/
def Fold.Nests (a b : Fold) : Prop :=
  (a.endLine < b.startLine ∨ b.endLine < a.startLine)
    ∨ (b.startLine ≤ a.startLine ∧ a.endLine ≤ b.endLine)
    ∨ (a.startLine ≤ b.startLine ∧ b.endLine ≤ a.endLine)

namespace Fold

variable {a b : Fold}

theorem Nests.symm (h : a.Nests b) : b.Nests a := by
  unfold Nests at *
  omega

theorem Nests.refl (a : Fold) : a.Nests a := by
  simp [Nests]

theorem Nests.lines (h : a.Nests b) :
    Disjoint a.lines b.lines ∨ a.lines ⊆ b.lines ∨ b.lines ⊆ a.lines := by
  rcases h with apart | inside | around
  · refine .inl (Set.disjoint_left.mpr fun n own other => ?_)
    simp only [Fold.lines, Set.mem_Icc] at own other
    omega
  · exact .inr (.inl (Set.Icc_subset_Icc inside.1 inside.2))
  · exact .inr (.inr (Set.Icc_subset_Icc around.1 around.2))

end Fold

/-- Folds of two lines or more, from line `first` on and in front of line `stop`, that do not cut
into each other. -/
structure Laminar (first stop : Nat) (folds : List Fold) : Prop where
  spans : ∀ fold ∈ folds,
    first ≤ fold.startLine ∧ fold.startLine < fold.endLine ∧ fold.endLine < stop
  nested : folds.Pairwise Fold.Nests

namespace Laminar

variable {first middle stop : Nat} {folds behind : List Fold}

theorem nil (first stop : Nat) : Laminar first stop [] := ⟨by simp, .nil⟩

theorem mono {first' stop' : Nat} (h : Laminar first stop folds) (lower : first' ≤ first)
    (upper : stop ≤ stop') : Laminar first' stop' folds := by
  refine ⟨fun fold mem => ?_, h.nested⟩
  have := h.spans fold mem
  omega

theorem perm (h : Laminar first stop folds) (same : folds.Perm behind) :
    Laminar first stop behind :=
  ⟨fun fold mem => h.spans fold (same.mem_iff.mpr mem), h.nested.perm same fun nests => nests.symm⟩

/-- The folds of two stretches of lines, one behind the other. -/
theorem append (h : Laminar first middle folds) (h' : Laminar middle stop behind)
    (lower : first ≤ middle) (upper : middle ≤ stop) : Laminar first stop (folds ++ behind) := by
  constructor
  · intro fold mem
    rcases List.mem_append.mp mem with front | back
    · exact (h.mono le_rfl upper).spans fold front
    · exact (h'.mono lower le_rfl).spans fold back
  · refine List.pairwise_append.mpr ⟨h.nested, h'.nested, fun a front b back => ?_⟩
    have before := h.spans a front
    have after := h'.spans b back
    unfold Fold.Nests
    omega

/-- One fold around a whole stretch. -/
theorem cons (h : Laminar first stop folds) (fold : Fold) (lower : fold.startLine ≤ first)
    (upper : stop ≤ fold.endLine + 1) (long : fold.startLine < fold.endLine) :
    Laminar fold.startLine (fold.endLine + 1) (fold :: folds) := by
  constructor
  · intro inner mem
    rcases List.mem_cons.mp mem with rfl | mem
    · omega
    · exact (h.mono lower upper).spans inner mem
  · refine List.pairwise_cons.mpr ⟨fun inner mem => ?_, h.nested⟩
    have := h.spans inner mem
    unfold Fold.Nests
    omega

end Laminar

/-! ## 2. The folds of a block -/

/-- The run has a line for each number from its first line to the one in front of line `k`. -/
structure Run.EndsBefore (r : Run) (k : Nat) : Prop where
  lines : r.startLine + r.count = k
  last : r.endLine + 1 = k

namespace Run

/-- The line that the open run starts on, or the line that comes next if no run is open. -/
def firstLine (run : Option Run) (k : Nat) : Nat := (run.map Run.startLine).getD k

variable {run : Option Run} {k : Nat}

theorem firstLine_le (before : ∀ r ∈ run, r.EndsBefore k) : firstLine run k ≤ k := by
  cases run with
  | none => simp [firstLine]
  | some r =>
    have := (before r rfl).lines
    simp only [firstLine, Option.map_some, Option.getD_some]
    omega

theorem laminar_folds (before : ∀ r ∈ run, r.EndsBefore k) :
    Laminar (firstLine run k) k (run.elim [] folds) := by
  cases run with
  | none => exact .nil _ _
  | some r =>
    obtain ⟨lines, last⟩ := before r rfl
    simp only [firstLine, Option.map_some, Option.getD_some, Option.elim_some, folds]
    split
    · split
      · next long =>
        rw [shortest] at long
        refine ⟨fun fold mem => ?_, List.pairwise_singleton ..⟩
        rw [List.mem_singleton] at mem
        simp only [mem]
        omega
      · exact .nil _ _
    · exact .nil _ _

/-- A line without a key ends the run in front of it. -/
theorem closed_of_unkeyed {l : Line} (unkeyed : l.runKey? = none) :
    closed run l = run.elim [] folds ∧ next? run l = none := by
  cases run <;> simp [closed, next?, unkeyed]

/-- With a line that has a key, either the open run goes on, or that run is closed and the line is
the first one of another. -/
theorem next?_of_keyed {l : Line} (keyed : l.runKey?.isSome) (number : l.lineNumber = k)
    (before : ∀ r ∈ run, r.EndsBefore k) :
    ∃ r, next? run l = some r ∧ r.EndsBefore (k + 1)
      ∧ (closed run l = [] ∧ r.startLine = firstLine run k
        ∨ closed run l = run.elim [] folds ∧ r.startLine = k) := by
  obtain ⟨key, own⟩ := Option.isSome_iff_exists.mp keyed
  cases run with
  | none => simp [next?, closed, own, number, EndsBefore.mk, firstLine]
  | some r =>
    obtain ⟨lines, last⟩ := before r rfl
    by_cases same : r.key = key
    · simp [next?, closed, own, same, number, firstLine, EndsBefore.mk, ← lines, Nat.add_assoc]
    · have other : key ≠ r.key := fun h => same h.symm
      simp [next?, closed, own, same, other, number, EndsBefore.mk]

end Run

/-- The lines of a list, with those under them, are numbered from `k` on. -/
def Line.NumberedFrom (k : Nat) (ls : List Line) : Prop :=
  (withinAll ls).map lineNumber = List.range' k (withinAll ls).length

/-- So are those under the first line, and those behind it, from where they begin. -/
theorem Line.NumberedFrom.parts {k : Nat} {l : Line} {ls : List Line}
    (h : NumberedFrom k (l :: ls)) :
    l.lineNumber = k ∧ NumberedFrom (k + 1) l.children
      ∧ NumberedFrom (k + 1 + (withinAll l.children).length) ls := by
  rw [NumberedFrom, withinAll_cons, List.map_cons, List.map_append, List.length_cons,
    List.range'_succ, List.cons.injEq, List.length_append, ← List.range'_append_1] at h
  obtain ⟨number, rest⟩ := h
  obtain ⟨nested, later⟩ := List.append_inj rest (by simp)
  exact ⟨number, nested, later⟩

/-- The fold of an element ends on the last of the lines under it. -/
theorem Line.endLine_of_numberedFrom {k : Nat} {l : Line} (nested : l.children ≠ [])
    (h : NumberedFrom k l.children) :
    (lastFrameOf l.frame l.children).start.line + 1 = k + (withinAll l.children).length := by
  obtain ⟨m, ms, more⟩ := List.exists_cons_of_ne_nil nested
  have some_line : (withinAll l.children).length ≠ 0 := by simp [more, withinAll_cons]
  have last := congrArg List.getLast? h
  rw [List.getLast?_map, List.getLast?_range', if_neg some_line] at last
  obtain ⟨last, found, number⟩ := Option.map_eq_some_iff.mp last
  have frame : (lastFrameOf l.frame l.children).start.line = last.lineNumber := by
    rw [lastFrameOf_eq, found]
    rfl
  omega

/-- With the folds of the lines under it, the fold of an element is laminar on all these lines. -/
theorem Line.laminar_folds {l : Line} {k : Nat} (number : l.lineNumber = k)
    (nested : NumberedFrom (k + 1) l.children)
    (inner : Laminar (k + 1) (k + 1 + (withinAll l.children).length) (blockFolds none l.children)) :
    Laminar k (k + 1 + (withinAll l.children).length) l.folds := by
  rw [l.folds_eq, elementFolds]
  by_cases childless : l.children = []
  · simpa [childless, blockFolds] using Laminar.nil _ _
  · have last := endLine_of_numberedFrom childless nested
    have some_line : 0 < (withinAll l.children).length :=
      List.length_pos_of_mem (mem_withinAll (List.head_mem childless))
    have long : k < (lastFrameOf l.frame l.children).start.line := by omega
    rw [if_neg (by simpa using childless), number, ← last]
    exact inner.cons ⟨k, _, .element⟩ (Nat.le_succ k) last.ge long

/-- The folds of the lines of a block, and of all that is nested in them, are laminar on the lines
from the start of the open run to the last of these lines. -/
theorem laminar_blockFolds (run : Option Run) (ls : List Line) {k : Nat}
    (numbers : Line.NumberedFrom k ls) (before : ∀ r ∈ run, r.EndsBefore k) :
    Laminar (Run.firstLine run k) (k + (Line.withinAll ls).length) (Line.blockFolds run ls) := by
  match ls with
  | [] => simpa [Line.blockFolds, Line.withinAll] using Run.laminar_folds before
  | l :: ls =>
    obtain ⟨number, nested, later⟩ := numbers.parts
    have start := Run.firstLine_le before
    have inner := laminar_blockFolds none l.children nested (by simp)
    have stop : (k + (Line.withinAll (l :: ls)).length)
        = k + 1 + (Line.withinAll l.children).length + (Line.withinAll ls).length := by
      simp [Line.withinAll_cons]
      omega
    rw [Line.blockFolds, stop]
    cases key : l.runKey? with
    | none =>
      -- What is nested in the line lies behind the run that the line ends.
      obtain ⟨closed, next⟩ : Run.closed run l = run.elim [] Run.folds ∧ Run.next? run l = none :=
        Run.closed_of_unkeyed key
      have own := Line.laminar_folds number nested inner
      have rest := laminar_blockFolds none ls later (by simp)
      rw [closed, next]
      have swapped := (Run.laminar_folds before).append own start (by omega)
      exact (swapped.perm List.perm_append_comm).append rest (by omega) (by omega)
    | some own =>
      -- Nothing is nested in the line, and the run behind it ends in front of the next one.
      have childless : l.children = [] := Line.children_of_runKey? (by simp [key])
      obtain ⟨r, next, ends, goes⟩ :=
        Run.next?_of_keyed (by simp [key] : l.runKey?.isSome) number before
      simp only [childless, Line.withinAll, List.length_nil, Nat.add_zero] at later ⊢
      have rest := laminar_blockFolds (some r) ls later (by simpa using ends)
      have folds : l.folds = [] := by
        simp [l.folds_eq, Line.elementFolds, childless, Line.blockFolds]
      rw [folds, next, List.nil_append]
      rcases goes with ⟨closed, first⟩ | ⟨closed, first⟩
      · rw [closed, List.nil_append, ← first]
        exact rest
      · rw [closed]
        exact (Run.laminar_folds before).append (first ▸ rest) start (by omega)
termination_by sizeOf ls
decreasing_by
  · exact Line.sizeOf_children_lt l ls
  all_goals simp only [List.cons.sizeOf_spec]; omega

/-! ## 3. Files -/

/-- The line starts know one line more than the text has if the text ends in a line break. -/
theorem length_physicalLines_le (text : List Char) :
    (physicalLines text).length ≤ (LineStarts.ofText text).count := by
  rw [LineStarts.count_ofText, physicalLines_eq]
  refine (List.length_filter_le ..).trans ?_
  simp

theorem laminar_folds (variant : Variant) (text : List Char) :
    Laminar 0 (physicalLines text).length (SourceFile.ofText variant text).folds := by
  have numbers := map_lineNumber variant text
  have length := congrArg List.length numbers
  rw [List.length_map, List.length_range] at length
  rw [List.range_eq_range', ← length] at numbers
  simpa [SourceFile.folds, Run.firstLine, length] using
    laminar_blockFolds none _ numbers (by simp)

/-- The folds that are sent for a text, when nothing is cancelled and nothing was known of them
before, are properly nested: each goes from a line of the document to a later one, no two go from
the same line to the same line, and any two have no line in common, or one has all lines of the
other. -/
theorem folds_nested (variant : Variant) (text : List Char) :
    let file := SourceFile.ofText variant text
    (∀ a : Analysis, a.tree = file → a.folds = none → (a.foldsUnless false).1 = .ok file.folds)
      ∧ (∀ fold ∈ file.folds, fold.startLine < fold.endLine
        ∧ fold.endLine < (physicalLines text).length
        ∧ fold.endLine < (LineStarts.ofText text).count)
      ∧ (file.folds.map fun fold => (fold.startLine, fold.endLine)).Nodup
      ∧ ∀ a ∈ file.folds, ∀ b ∈ file.folds,
        Disjoint a.lines b.lines ∨ a.lines ⊆ b.lines ∨ b.lines ⊆ a.lines := by
  intro file
  have laminar := laminar_folds variant text
  refine ⟨fun a tree unknown => ?_, fun fold mem => ?_, ?_, fun a ha b hb => ?_⟩
  · rw [Analysis.foldsUnless, unknown, tree]
    rfl
  · obtain ⟨-, long, inside⟩ := laminar.spans fold mem
    exact ⟨long, inside, inside.trans_le (length_physicalLines_le text)⟩
  · refine List.Nodup.of_map Prod.fst ?_
    rw [List.map_map]
    exact nodup_folds variant text
  · have : Std.Symm Fold.Nests := ⟨fun _ _ nests => nests.symm⟩
    exact (laminar.nested.forall_of_forall (fun c _ => Fold.Nests.refl c) ha hb).lines

end OffsideMarkup
