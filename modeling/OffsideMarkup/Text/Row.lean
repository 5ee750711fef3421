/-
OffsideMarkup.Text.Row — a row of characters that is written at columns.

What is written stands over what was there. A row that is too short is filled up with blanks first,
unless nothing is written. Two laws say what a row holds afterwards: in the columns of the text that
text, and before them what was there.
-/

namespace OffsideMarkup.Row

/-- The row as long as needed to be written at a column. -/
def fill (row : List Char) (column : Nat) : List Char :=
  row ++ List.replicate (column - row.length) ' '

/-- The row with a text over it, from a column on. -/
def write (row : List Char) (column : Nat) (text : List Char) : List Char :=
  if text.isEmpty then row
  else (fill row column).take column ++ text ++ row.drop (column + text.length)

theorem write_nil (row : List Char) (column : Nat) : write row column [] = row := rfl

theorem length_take_fill (row : List Char) (column : Nat) :
    ((fill row column).take column).length = column := by
  simp only [fill, List.length_take, List.length_append, List.length_replicate]
  omega

/-- In its columns stands the text. -/
theorem getElem?_write_add (row : List Char) (column : Nat) {text : List Char} {i : Nat}
    (h : i < text.length) : (write row column text)[column + i]? = text[i]? := by
  have nonempty : text.isEmpty = false := by
    cases text with
    | nil => simp at h
    | cons _ _ => rfl
  rw [write, nonempty, if_neg Bool.false_ne_true, List.append_assoc, List.getElem?_append_right,
    length_take_fill, Nat.add_sub_cancel_left, List.getElem?_append_left h]
  rw [length_take_fill]
  exact Nat.le_add_right column i

/-- Before its columns stands what was there. -/
theorem getElem?_write_of_lt (row : List Char) {column : Nat} {text : List Char} {i : Nat}
    (h : i < column) (inside : i < row.length) : (write row column text)[i]? = row[i]? := by
  unfold write
  split
  · rfl
  · rw [List.append_assoc, List.getElem?_append_left, List.getElem?_take_of_lt h, fill,
      List.getElem?_append_left inside]
    rw [length_take_fill]
    exact h

end OffsideMarkup.Row
