/-
OffsideMarkup.Proofs.EditedText — what an edit makes of a text, without tables and bytes.

`Change.apply` looks up the ends of a region in the table of lines and cuts the text at the bytes
that it finds. An end can also be given by the text in front of it (`frontOf`): the lines above, and
of its own line the shortest beginning that is as wide as the column says. What an edit replaces is
what one of the two fronts has more than the other, so nothing has to be cut but lists of characters
(`Change.edited`).

* `isPrefix_frontOf`, `offsetIn_eq_byteLength` — a front is a beginning of the text, and its length
  in bytes is the byte of the position.
* `Change.edited_eq_apply` — so both ways to edit a text come to the same.
-/
import Mathlib.Data.List.Infix
import OffsideMarkup.Proofs.Positions

namespace OffsideMarkup

/-! ## 1. Fronts -/

/-- The shortest beginning of a line that reaches a column, or all of the line. -/
def reaching (column : Nat) (cs : List Char) : List Char :=
  (cs.inits.find? (column ≤ unitLength ·)).getD cs

/-- The text in front of a position. -/
def frontOf (text : List Char) (p : Position) : List Char :=
  match (endedLines text)[p.line]? with
  | none => text
  | some l => textAbove text p.line ++ reaching p.column l.content

/-- A text after an edit. -/
def Change.edited (c : Change) (text : List Char) : List Char :=
  match c.region with
  | none => c.text
  | some r =>
    let a := (frontOf text r.start).length
    let b := (frontOf text r.stop).length
    text.take (min a b) ++ c.text ++ text.drop (max a b)

/-- A region may be given backwards; its column may be that of the low half of a character, which
belongs to the region then. -/
example : Change.edited ⟨some ⟨⟨1, 2⟩, ⟨0, 1⟩⟩, ['x']⟩ ['a', 'b', '\r', 'c', '😀', 'd']
    = ['a', 'x', 'd'] := by decide

/-! ## 2. Columns -/

theorem reaching_nil (column : Nat) : reaching column [] = [] := by
  cases column <;> rfl

theorem reaching_cons (column : Nat) (c : Char) (cs : List Char) :
    reaching column (c :: cs)
      = if column = 0 then [] else c :: reaching (column - unitWidth c) cs := by
  rw [reaching, List.inits_cons, List.find?_cons]
  by_cases zero : column = 0
  · rw [if_pos zero, zero]
    rfl
  · have wider : ((column ≤ unitLength ·) ∘ (c :: ·) : List Char → Bool)
        = (column - unitWidth c ≤ unitLength ·) := by
      funext front
      exact decide_eq_decide.mpr (by rw [unitLength_cons]; omega)
    rw [if_neg zero, unitLength_nil, decide_eq_false (by omega)]
    dsimp only
    rw [List.find?_map, wider, reaching]
    cases cs.inits.find? (column - unitWidth c ≤ unitLength ·) <;> rfl

theorem isPrefix_reaching (column : Nat) (cs : List Char) : reaching column cs <+: cs := by
  induction cs generalizing column with
  | nil => exact (reaching_nil column).symm ▸ List.prefix_rfl
  | cons c cs ih =>
    rw [reaching_cons]
    split
    · exact List.nil_prefix
    · exact List.cons_prefix_cons.mpr ⟨rfl, ih _⟩

theorem bytesToColumn_eq_byteLength (column : Nat) (cs : List Char) :
    bytesToColumn column cs = byteLength (reaching column cs) := by
  induction cs generalizing column with
  | nil => rw [reaching_nil]; rfl
  | cons c cs ih =>
    rw [reaching_cons, bytesToColumn]
    split
    · rfl
    · rw [ih, byteLength_cons]

/-! ## 3. Edits -/

variable {text xs ys : List Char}

theorem isPrefix_frontOf (text : List Char) (p : Position) : frontOf text p <+: text := by
  rw [frontOf]
  cases at_p : (endedLines text)[p.line]? with
  | none => exact List.prefix_rfl
  | some l =>
    have split := split_at_line at_p
    have inner := (isPrefix_reaching p.column l.content).trans
      (List.prefix_append _ (l.ending ++ textFrom text (p.line + 1)))
    conv_rhs => rw [split]
    exact (List.prefix_append_right_inj _).mpr inner

theorem offsetIn_eq_byteLength (text : List Char) (p : Position) :
    offsetIn text (.ofText text) p = byteLength (frontOf text p) := by
  rw [offsetIn_ofText, frontOf]
  cases (endedLines text)[p.line]? with
  | none => rfl
  | some l => rw [Option.elim_some, bytesToColumn_eq_byteLength, byteLength_append]; rfl

theorem takeBytes_beginning (h : xs <+: text) :
    takeBytes (byteLength xs) text = text.take xs.length := by
  obtain ⟨zs, rfl⟩ := h
  rw [takeBytes_byteLength, List.take_left]

theorem dropBytes_beginning (h : xs <+: text) :
    dropBytes (byteLength xs) text = text.drop xs.length := by
  obtain ⟨zs, rfl⟩ := h
  rw [dropBytes_byteLength, List.drop_left]

theorem byteLength_mono (h : xs <+: ys) : byteLength xs ≤ byteLength ys := by
  obtain ⟨zs, rfl⟩ := h
  rw [byteLength_append]
  exact Nat.le_add_right ..

/-- Between two beginnings of a text, bytes and characters are cut out alike. -/
theorem splice_beginnings (first : xs <+: text) (second : ys <+: text) (new : List Char) :
    splice (min (byteLength xs) (byteLength ys)) (max (byteLength xs) (byteLength ys)) new text
      = text.take (min xs.length ys.length) ++ new ++ text.drop (max xs.length ys.length) := by
  rcases List.prefix_or_prefix_of_prefix first second with le | le
  · have bytes := byteLength_mono le
    rw [splice, Nat.min_eq_left bytes, Nat.max_eq_right bytes, Nat.min_eq_left le.length_le,
      Nat.max_eq_right le.length_le, takeBytes_beginning first, dropBytes_beginning second]
  · have bytes := byteLength_mono le
    rw [splice, Nat.min_eq_right bytes, Nat.max_eq_left bytes, Nat.min_eq_right le.length_le,
      Nat.max_eq_left le.length_le, takeBytes_beginning second, dropBytes_beginning first]

theorem Change.edited_eq_apply (c : Change) (text : List Char) : c.edited text = c.apply text := by
  rw [edited, apply]
  cases c.region with
  | none => rfl
  | some r =>
    dsimp only
    rw [offsetIn_eq_byteLength, offsetIn_eq_byteLength,
      splice_beginnings (isPrefix_frontOf text r.start) (isPrefix_frontOf text r.stop)]

end OffsideMarkup
