/-
OffsideMarkup.Proofs.BlockLines — the lines of a block, read from front to back.

`Line.nest` first cuts the rows of a block off and nests them then. Whoever reads a file line by
line does it the other way round: in front of a line the rows behind the block are ahead as well, and
the block that an element opens is read before it is known where the block around it stops. That
both come to the same is a matter of levels. A deeper block stops no later than the block around it
(`blockLength_inner`), and up to there the rows look the same from inside (`ahead_take`).

`Line.blockOf` are the lines of a block by the rows from its start on, and each way a block can go
on has its equation.
-/
import Mathlib.Data.List.Basic
import OffsideMarkup.Grammar.Offside

namespace OffsideMarkup

/-! ## 1. Blocks in blocks -/

namespace Row

variable {level inner : Nat} {r : Row} {rows : List Row}

theorem blockLength_of_le (h : level ≤ ahead (r :: rows)) :
    blockLength level (r :: rows) = blockLength level rows + 1 := by rw [blockLength, if_pos h]

theorem blockLength_of_lt (h : ahead rows < level) : blockLength level rows = 0 := by
  cases rows with
  | nil => rfl
  | cons r rows => rw [blockLength, if_neg (by omega)]

/-- Where a block goes on over a blank row, the same row is ahead behind it. -/
theorem ahead_of_blank (blank : r.isBlank = true) : ahead (r :: rows) = ahead rows := by
  rw [ahead, if_pos blank]

theorem ahead_of_content (content : r.isBlank = false) : ahead (r :: rows) = r.level := by
  rw [ahead, content]
  rfl

/-- From inside a block that has rows, the same row is ahead. -/
theorem ahead_take (h : level ≤ ahead rows) :
    ahead (rows.take (blockLength level rows)) = ahead rows := by
  induction rows with
  | nil => rfl
  | cons r rows ih =>
    rw [blockLength_of_le h, List.take_succ_cons]
    cases blank : r.isBlank with
    | true =>
      rw [ahead_of_blank blank] at h
      rw [ahead_of_blank blank, ahead_of_blank blank, ih h]
    | false => rw [ahead_of_content blank, ahead_of_content blank]

/-- A deeper block is as long inside the block around it. -/
theorem blockLength_take (deeper : level ≤ inner) (rows : List Row) :
    blockLength inner (rows.take (blockLength level rows)) = blockLength inner rows := by
  induction rows with
  | nil => rfl
  | cons r rows ih =>
    by_cases h : level ≤ ahead (r :: rows)
    · have same := ahead_take h
      rw [blockLength_of_le h, List.take_succ_cons] at same ⊢
      rw [blockLength, blockLength, same, ih]
    · have outer : blockLength level (r :: rows) = 0 := blockLength_of_lt (by omega)
      have none : blockLength inner (r :: rows) = 0 := blockLength_of_lt (by omega)
      rw [outer, none]
      rfl

/-- Behind a deeper block, the block around it goes on. -/
theorem blockLength_inner (deeper : level ≤ inner) (rows : List Row) :
    blockLength level rows
      = blockLength inner rows + blockLength level (rows.drop (blockLength inner rows)) := by
  induction rows with
  | nil => rfl
  | cons r rows ih =>
    by_cases h : inner ≤ ahead (r :: rows)
    · rw [blockLength_of_le h, blockLength_of_le (Nat.le_trans deeper h), List.drop_succ_cons, ih]
      omega
    · have none : blockLength inner (r :: rows) = 0 := blockLength_of_lt (by omega)
      rw [none, List.drop_zero, Nat.zero_add]

theorem blockLength_zero (rows : List Row) : blockLength 0 rows = rows.length := by
  induction rows with
  | nil => rfl
  | cons r rows ih => rw [blockLength_of_le (Nat.zero_le _), ih, List.length_cons]

end Row

/-! ## 2. How a block goes on -/

namespace Line

open Row

variable {level : Nat} {f : Frame} {rows : List Row}

/-- The lines of a block, by the rows from its start on. -/
def blockOf (level : Nat) (rows : List Row) : List Line :=
  nest (rows.take (blockLength level rows))

theorem blockOf_nil (level : Nat) : blockOf level [] = [] := by
  rw [blockOf, List.take_nil, nest]

/-- A block stops where the row ahead is not indented far enough. -/
theorem blockOf_of_lt (h : ahead rows < level) : blockOf level rows = [] := by
  rw [blockOf, blockLength_of_lt h, List.take_zero, nest]

theorem blockOf_simple {b : Body} (h : level ≤ ahead (.simple f b :: rows)) :
    blockOf level (.simple f b :: rows) = .simple f b :: blockOf level rows := by
  rw [blockOf, blockLength_of_le h, List.take_succ_cons, nest]
  rfl

/-- An element under which the next row is indented further opens a block. Behind that the block
around it goes on. -/
theorem blockOf_open {t : Tag} (h : level ≤ f.level) (deeper : f.level < ahead rows) :
    blockOf level (.element f t :: rows)
      = .element f t (blockOf (ahead rows) rows)
        :: blockOf level (rows.drop (blockLength (ahead rows) rows)) := by
  have above : level ≤ ahead rows := Nat.le_of_lt (Nat.lt_of_le_of_lt h deeper)
  have split := blockLength_inner above rows
  have length := blockLength_take above rows
  rw [blockOf, blockLength_of_le (r := .element f t) h, List.take_succ_cons, nest, ahead_take above]
  dsimp only
  rw [if_pos deeper, length, List.take_take, List.drop_take, blockOf, blockOf,
    Nat.min_eq_left (by omega), split, Nat.add_sub_cancel_left]

theorem blockOf_single {t : Tag} (h : level ≤ f.level) (flat : ¬f.level < ahead rows) :
    blockOf level (.element f t :: rows) = .element f t [] :: blockOf level rows := by
  have inside : ¬f.level < ahead (rows.take (blockLength level rows)) := by
    by_cases above : level ≤ ahead rows
    · rwa [ahead_take above]
    · rw [blockLength_of_lt (by omega), List.take_zero]
      exact Nat.not_lt_zero _
  rw [blockOf, blockLength_of_le (r := .element f t) h, List.take_succ_cons, nest]
  dsimp only
  rw [if_neg inside]
  rfl

/-- The lines of a file are a block of level 0. -/
theorem blockOf_zero (rows : List Row) : blockOf 0 rows = nest rows := by
  rw [blockOf, blockLength_zero, List.take_length]

/-- Nesting keeps in view which line comes first. -/
theorem blockLevel_nest (rows : List Row) : blockLevel (nest rows) = ahead rows := by
  induction rows with
  | nil => rw [nest]; rfl
  | cons r rows ih =>
    cases r with
    | simple f b => rw [nest, blockLevel, ih]; rfl
    | element f t =>
      rw [nest]
      dsimp only
      split <;> rfl

/-- The block that an element opens has the level that was seen ahead. -/
theorem blockLevel_blockOf (rows : List Row) :
    blockLevel (blockOf (ahead rows) rows) = ahead rows := by
  rw [blockOf, blockLevel_nest, ahead_take (Nat.le_refl _)]

end Line

end OffsideMarkup
