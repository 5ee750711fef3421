/-
OffsideMarkup.Proofs.Distances — pieces by their distances lose nothing.

Editors are sent a flat list of numbers, five for each piece: how many lines it is below the piece
before, how many columns behind that where both stand on one line, its length, its meaning and a
zero. The subtractions are of machine words, and they must not fall below zero.

* `Apart` — a piece, and the next one that starts at or behind its end. Since no piece is empty, the
  starts of the pieces of a text strictly increase (`apart_highlights`).
* `encodeFrom?_eq` — where pieces are apart, no subtraction fails, and the distances are those of
  `Highlight.relative`.
* `decodeFrom_numbers` — whoever adds the numbers up again, columns within a line only, has the
  pieces back. This does not use `Highlight.absolute`: it reads the numbers themselves.
* `fits_highlights` — in a text that is not too long all these numbers are words.
-/
import Mathlib.Data.Nat.PSub
import OffsideMarkup.Protocol.Feature
import OffsideMarkup.Proofs.BuilderTotal
import OffsideMarkup.Proofs.HighlightCover

namespace OffsideMarkup

namespace Highlight

/-! ## 1. There and back -/

/-- The distance of a piece from a line and a column, with subtractions that give nothing below
zero. -/
def distance? (line column : Nat) (h : Highlight) : Option RelativeHighlight :=
  (h.line.psub line).bind fun lines =>
    (if lines = 0 then h.column.psub column else some h.column).map fun columns =>
      ⟨lines, columns, h.length, h.meaning⟩

/-- The distances of pieces, the first one from the given line and column, if none fails. -/
def encodeFrom? (line column : Nat) : List Highlight → Option (List RelativeHighlight)
  | [] => some []
  | h :: hs => do
    let first ← h.distance? line column
    let later ← encodeFrom? h.line h.column hs
    return first :: later

/-- What an editor makes of the numbers it is sent: line, column, length and number of the meaning
of each piece. -/
def decodeFrom (line column : Nat) : List Nat → List (Nat × Nat × Nat × Nat)
  | lines :: columns :: length :: meaning :: _ :: later =>
    let start := if lines = 0 then column + columns else columns
    (line + lines, start, length, meaning) :: decodeFrom (line + lines) start later
  | _ => []

/-- The second piece starts further on than the first, and not inside it. -/
def Apart (a b : Highlight) : Prop :=
  a.line < b.line ∨ a.line = b.line ∧ a.column < b.column ∧ a.column + a.length ≤ b.column

/-- A piece starts here or further on. -/
def From (line column : Nat) (h : Highlight) : Prop :=
  line < h.line ∨ line = h.line ∧ column ≤ h.column

theorem Apart.from_start {a b : Highlight} (h : a.Apart b) : From a.line a.column b :=
  h.imp id fun same => ⟨same.1, Nat.le_of_lt same.2.1⟩

theorem from_origin (h : Highlight) : From 0 0 h := by
  rcases Nat.eq_zero_or_pos h.line with zero | pos
  · exact .inr ⟨zero.symm, Nat.zero_le _⟩
  · exact .inl pos

section

variable {line column : Nat} {hs : List Highlight}

/-- The distance of a piece further on does not fail. -/
theorem From.distance?_eq {h : Highlight} (here : From line column h) :
    h.distance? line column = some ⟨h.line - line,
      if h.line - line = 0 then h.column - column else h.column, h.length, h.meaning⟩ := by
  have lines : h.line.psub line = some (h.line - line) :=
    Nat.psub_eq_sub (here.elim Nat.le_of_lt fun same => Nat.le_of_eq same.1)
  rw [distance?, lines, Option.bind_some]
  split
  · next same =>
    have columns : h.column.psub column = some (h.column - column) := by
      refine Nat.psub_eq_sub ?_
      rcases here with below | ⟨-, behind⟩
      · omega
      · exact behind
    rw [columns, Option.map_some]
  · rfl

/-- Where pieces are apart, no subtraction falls below zero. -/
theorem encodeFrom?_eq (first : ∀ h ∈ hs, From line column h) (apart : hs.Pairwise Apart) :
    encodeFrom? line column hs = some (relativeFrom line column hs) := by
  induction hs generalizing line column with
  | nil => rfl
  | cons h hs ih =>
    obtain ⟨behind, later⟩ := List.pairwise_cons.mp apart
    have here := (first h List.mem_cons_self).distance?_eq
    have rest := ih (fun g hg => (behind g hg).from_start) later
    rw [encodeFrom?, here, Option.bind_eq_bind, Option.bind_some, rest, relativeFrom]
    rfl

/-- Adding up the numbers of the distances gives the pieces. -/
theorem decodeFrom_numbers (first : ∀ h ∈ hs, From line column h) (apart : hs.Pairwise Apart) :
    decodeFrom line column ((relativeFrom line column hs).flatMap RelativeHighlight.numbers)
      = hs.map fun h => (h.line, h.column, h.length, h.meaning.index) := by
  induction hs generalizing line column with
  | nil => rfl
  | cons h hs ih =>
    obtain ⟨behind, later⟩ := List.pairwise_cons.mp apart
    have here := first h List.mem_cons_self
    have lineBack : line + (h.line - line) = h.line := by
      rcases here with below | ⟨same, -⟩ <;> omega
    have columnBack : (if h.line - line = 0
        then column + (if h.line - line = 0 then h.column - column else h.column)
        else if h.line - line = 0 then h.column - column else h.column) = h.column := by
      rcases here with below | ⟨same, behind⟩ <;> split <;> omega
    rw [relativeFrom, List.flatMap_cons, RelativeHighlight.numbers, List.cons_append,
      List.cons_append, List.cons_append, List.cons_append, List.cons_append, List.nil_append,
      decodeFrom]
    dsimp only
    rw [lineBack, columnBack, ih (fun g hg => (behind g hg).from_start) later, List.map_cons]

/-- No number of a distance is above the lines, the columns and the lengths it comes from. -/
theorem numbers_lt {bound : Nat} (some_meaning : Meaning.all.length ≤ bound)
    (fits : ∀ h ∈ hs, h.line < bound ∧ h.column + h.length < bound) :
    ∀ n ∈ (relativeFrom line column hs).flatMap RelativeHighlight.numbers, n < bound := by
  induction hs generalizing line column with
  | nil => intro n hn; simp [relativeFrom] at hn
  | cons h hs ih =>
    obtain ⟨⟨lines, columns⟩, later⟩ := List.forall_mem_cons.mp fits
    have meaning : h.meaning.index < bound :=
      Nat.lt_of_lt_of_le (List.idxOf_lt_length_of_mem h.meaning.mem_all) some_meaning
    rw [relativeFrom, List.flatMap_cons]
    refine List.forall_mem_append.mpr ⟨fun n hn => ?_, ih later⟩
    simp only [RelativeHighlight.numbers, List.mem_cons, List.not_mem_nil, or_false] at hn
    rcases hn with rfl | rfl | rfl | rfl | rfl
    · omega
    · split <;> omega
    · omega
    · exact meaning
    · omega

end

end Highlight

open Highlight

/-! ## 2. The pieces of a text -/

/-- No piece of a text is empty. -/
theorem length_pos_of_mem_highlights {variant : Variant} {text : List Char} {h : Highlight}
    (hh : h ∈ (SourceFile.ofText variant text).highlights) : 0 < h.length := by
  rw [highlights_ofText] at hh
  obtain ⟨l, hl, hh⟩ := List.mem_flatMap.mp hh
  obtain ⟨k, at_k⟩ := List.mem_iff_getElem?.mp hl
  obtain ⟨-, front, piece, back, -, -, length, -, c, cs, some_text, -⟩ :=
    (covers_line at_k).stretch h hh
  have width := unitWidth_pos c
  rw [length, some_text, unitLength_cons]
  omega

theorem apart_highlights (variant : Variant) (text : List Char) :
    (SourceFile.ofText variant text).highlights.Pairwise Apart := by
  refine List.Pairwise.imp_of_mem ?_ (pairwise_highlights variant text)
  intro a b ha _ before
  refine before.imp id fun ⟨line, column⟩ => ⟨line, ?_, column⟩
  exact Nat.lt_of_lt_of_le (Nat.lt_add_of_pos_right (length_pos_of_mem_highlights ha)) column

/-- In a text that is not too long, pieces have lines and columns that fit a word. -/
theorem fits_highlights {variant : Variant} {text : List Char}
    (short : byteLength text < wordBound) :
    ∀ h ∈ (SourceFile.ofText variant text).highlights,
      h.line < wordBound ∧ h.column + h.length < wordBound := by
  intro h hh
  rw [highlights_ofText] at hh
  obtain ⟨l, hl, hh⟩ := List.mem_flatMap.mp hh
  obtain ⟨k, at_k⟩ := List.mem_iff_getElem?.mp hl
  obtain ⟨line, front, piece, back, split, column, length, -⟩ := (covers_line at_k).stretch h hh
  obtain ⟨f, reads, -⟩ := Scanner.reads_ofText text
  obtain ⟨q, e, ts, own, passes, later, number⟩ := reads.line_at at_k
  have within := (Scanner.within_start short).passes passes
  have bytes := within.bytes
  have lines := within.line
  have number : q.token.stop.line = k := number.trans (Nat.zero_add k)
  have left : byteLength l.source + byteLength e.rest = byteLength q.rest := by
    rw [← byteLength_append, own.rest]
  have narrow := unitLength_le_byteLength l.source
  have whole : unitLength l.source = unitLength front + unitLength piece + unitLength back := by
    rw [split, unitLength_append, unitLength_append]
  omega

/-- The pieces of every text, as they are sent when nothing is cancelled: each starts behind the
start of the piece before and not inside it, so no distance falls below zero, and adding up the
numbers that are sent gives line, column, length and meaning of every piece. In a text of less than
4 GiB all these numbers fit a word. -/
theorem distances_exact (variant : Variant) (text : List Char) :
    (SourceFile.ofText variant text).highlights.Pairwise
        (fun a b => a.line < b.line
          ∨ a.line = b.line ∧ a.column < b.column ∧ a.column + a.length ≤ b.column)
      ∧ ∃ rs, encodeFrom? 0 0 (SourceFile.ofText variant text).highlights = some rs
        ∧ (∀ a : Analysis, a.tree = .ofText variant text → a.highlightsUnless false = .ok rs)
        ∧ decodeFrom 0 0 (rs.flatMap RelativeHighlight.numbers)
          = (SourceFile.ofText variant text).highlights.map
              (fun h => (h.line, h.column, h.length, h.meaning.index))
        ∧ (byteLength text < wordBound →
          (∀ h ∈ (SourceFile.ofText variant text).highlights,
              h.line < wordBound ∧ h.column + h.length < wordBound)
            ∧ ∀ n ∈ rs.flatMap RelativeHighlight.numbers, n < wordBound) := by
  have apart := apart_highlights variant text
  have first : ∀ h ∈ (SourceFile.ofText variant text).highlights, From 0 0 h :=
    fun h _ => from_origin h
  refine ⟨apart, _, encodeFrom?_eq first apart, fun a tree => ?_, decodeFrom_numbers first apart,
    fun short => ⟨fits_highlights short, numbers_lt (by decide) (fits_highlights short)⟩⟩
  rw [Analysis.highlightsUnless, Analysis.lineByLine, tree]
  rfl

end OffsideMarkup
