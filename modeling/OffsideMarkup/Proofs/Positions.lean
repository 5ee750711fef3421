/-
OffsideMarkup.Proofs.Positions — bytes and positions of a document are two names for one place.

`offset` and `position` of a document are two different computations: one goes over a line forwards
and counts units until a column is reached, the other measures what stands between the start of a
line and a byte. Both go by the table of lines, and the lines of the table are the lines of the text
(`LineStarts.line?_ofText`). In these terms

* `offsetIn_ofText` — a position leads to the start of its line, and over the characters of its
  content up to the column;
* `position?_of_isBoundary` — a byte between two characters is named by the line that starts last in
  front of it, and the units from there on.

So each undoes the other where a name is one that can be given (`position?_of_isCut`,
`position?_offsetIn`), and both keep the order of places. Positions that no place has are taken for
the end of what they overshoot, which keeps the order too (`offsetIn_mono`).
-/
import Mathlib.Data.List.TakeWhile
import OffsideMarkup.Proofs.Coordinates
import OffsideMarkup.Proofs.Edits
import OffsideMarkup.Proofs.EndedLine

namespace OffsideMarkup

/-! ## 1. Columns of a line -/

/-- The column is between the two units of a character. -/
def IsTorn (column : Nat) (cs : List Char) : Prop :=
  ∃ front c back, cs = front ++ c :: back ∧ unitLength front < column
    ∧ column < unitLength front + unitWidth c

example : IsTorn 2 ['a', '😀'] := ⟨['a'], '😀', [], rfl, by decide, by decide⟩

/-- A column that is between two characters, or at an end, has the characters in front of it. -/
theorem exists_split_of_column {column : Nat} {cs : List Char} (le : column ≤ unitLength cs)
    (between : ¬IsTorn column cs) :
    ∃ front back, cs = front ++ back ∧ unitLength front = column := by
  induction cs generalizing column with
  | nil => exact ⟨[], [], rfl, (Nat.le_zero.mp le).symm⟩
  | cons c cs ih =>
    rw [unitLength_cons] at le
    by_cases zero : column = 0
    · exact ⟨[], c :: cs, rfl, zero.symm⟩
    · have behind : unitWidth c ≤ column := by
        by_contra inside
        refine between ⟨[], c, cs, rfl, Nat.pos_of_ne_zero zero, ?_⟩
        rw [unitLength_nil]
        omega
      have later : ¬IsTorn (column - unitWidth c) cs := by
        rintro ⟨front, d, back, rfl, lower, upper⟩
        refine between ⟨c :: front, d, back, rfl, ?_, ?_⟩ <;> rw [unitLength_cons] <;> omega
      obtain ⟨front, back, rfl, units⟩ := ih (by omega) later
      refine ⟨c :: front, back, rfl, ?_⟩
      rw [unitLength_cons]
      omega

theorem bytesToColumn_mono {a b : Nat} (h : a ≤ b) (cs : List Char) :
    bytesToColumn a cs ≤ bytesToColumn b cs := by
  induction cs generalizing a b with
  | nil => exact Nat.le_refl 0
  | cons c cs ih =>
    rw [bytesToColumn, bytesToColumn]
    have later := ih (a := a - unitWidth c) (b := b - unitWidth c) (by omega)
    split <;> split <;> omega

theorem bytesToColumn_le (column : Nat) (cs : List Char) :
    bytesToColumn column cs ≤ byteLength cs := by
  obtain ⟨front, back, rfl, bytes⟩ := exists_split_of_bytesToColumn column cs
  rw [bytes, byteLength_append]
  exact Nat.le_add_right ..

/-! ## 2. Lines of the text -/

/-- The text in front of a line. -/
def textAbove (text : List Char) (k : Nat) : List Char :=
  ((endedLines text).take k).flatMap EndedLine.source

/-- The text from the start of a line on. -/
def textFrom (text : List Char) (k : Nat) : List Char :=
  ((endedLines text).drop k).flatMap EndedLine.source

theorem textAbove_append_textFrom (text : List Char) (k : Nat) :
    textAbove text k ++ textFrom text k = text := by
  rw [textAbove, textFrom, ← List.flatMap_append, List.take_append_drop, flatMap_source_endedLines]

section
variable {cs brk after : List Char} (unbroken : Unbroken cs) (h : IsBreak brk after) (k : Nat)

include unbroken h

theorem textAbove_succ :
    textAbove (cs ++ (brk ++ after)) (k + 1) = cs ++ (brk ++ textAbove after k) := by
  rw [textAbove, endedLines_line unbroken h, List.take_succ_cons, List.flatMap_cons,
    EndedLine.source, List.append_assoc]
  rfl

theorem textFrom_succ : textFrom (cs ++ (brk ++ after)) (k + 1) = textFrom after k := by
  rw [textFrom, endedLines_line unbroken h, List.drop_succ_cons]
  rfl

/-- Reading goes on from the start of the next line. -/
theorem Location.through_line (here : Location) :
    here.through (cs ++ (brk ++ after)) = (((here.after cs).after brk).nextLine).through after := by
  have torn : Whole cs (brk ++ after) := (whole_nil _).append_unbroken unbroken
  rw [through_append here torn, through_unbroken here unbroken, through_break _ h]

end

section
variable {text : List Char} {k : Nat} {l : EndedLine}

/-- Between two lines of a text no break is torn apart. -/
theorem whole_lines (text : List Char) (k : Nat) : Whole (textAbove text k) (textFrom text k) := by
  induction text using byLines generalizing k with
  | last cs unbroken =>
    cases k with
    | zero => exact whole_nil _
    | succ k =>
      have nothing : textFrom cs (k + 1) = [] := by simp [textFrom, endedLines_last unbroken]
      rintro ⟨-, next⟩
      rw [nothing] at next
      exact absurd next (by simp)
  | line cs brk after unbroken h ih =>
    cases k with
    | zero => exact whole_nil _
    | succ k =>
      have lines := textAbove_append_textFrom after k
      rw [textAbove_succ unbroken h, textFrom_succ unbroken h, ← List.append_assoc]
      cases front : textAbove after k with
      | nil =>
        rw [front, List.nil_append] at lines
        rw [lines, List.append_nil]
        exact h.whole cs
      | cons c front' =>
        rw [← front]
        exact (ih k).prepend (cs ++ brk) (by simp [front])

/-- Reading what stands in front of a line leads to its start. -/
theorem Location.through_textAbove (here : Location) (start : here.column = 0)
    (inside : k < (endedLines text).length) :
    (here.through (textAbove text k)).line = here.line + k
      ∧ (here.through (textAbove text k)).column = 0 := by
  induction text using byLines generalizing here k with
  | last cs unbroken =>
    rw [endedLines_last unbroken] at inside
    obtain rfl : k = 0 := Nat.lt_one_iff.mp inside
    exact ⟨rfl, start⟩
  | line cs brk after unbroken h ih =>
    rw [endedLines_line unbroken h] at inside
    cases k with
    | zero => exact ⟨rfl, start⟩
    | succ k =>
      have lines := textAbove_append_textFrom after k
      have whole : IsBreak brk (textAbove after k) := (lines.symm ▸ h).of_append
      obtain ⟨line, column⟩ := ih ((here.after cs).after brk).nextLine rfl
        (Nat.lt_of_succ_lt_succ inside)
      rw [textAbove_succ unbroken h, through_line unbroken whole, line]
      exact ⟨by show here.line + 1 + k = here.line + (k + 1); omega, column⟩

/-- A line of a text, with what stands in front of it and behind it. -/
theorem split_at_line (at_k : (endedLines text)[k]? = some l) :
    text = textAbove text k ++ (l.content ++ (l.ending ++ textFrom text (k + 1))) := by
  obtain ⟨inside, rfl⟩ := List.getElem?_eq_some_iff.mp at_k
  have from_k : textFrom text k = (endedLines text)[k].source ++ textFrom text (k + 1) := by
    rw [textFrom, List.drop_eq_getElem_cons inside, List.flatMap_cons]
    rfl
  conv_lhs => rw [← textAbove_append_textFrom text k, from_k, EndedLine.source, List.append_assoc]

theorem lineByte_le (text : List Char) {i j : Nat} (h : i ≤ j) :
    lineByte text i ≤ lineByte text j := by
  obtain ⟨more, split⟩ : (endedLines text).take i <+: (endedLines text).take j :=
    List.take_prefix_take_left h
  rw [lineByte, lineByte, ← split, List.flatMap_append, byteLength_append]
  exact Nat.le_add_right ..

theorem lineByte_succ (at_k : (endedLines text)[k]? = some l) :
    lineByte text (k + 1) = lineByte text k + byteLength l.source := by
  rw [lineByte, List.take_add_one, at_k, List.flatMap_append, byteLength_append]
  simp [lineByte]

theorem lineByte_boundary (text : List Char) (k : Nat) : isBoundary (lineByte text k) text = true :=
  isBoundary_iff.mpr ⟨_, _, (textAbove_append_textFrom text k).symm, rfl⟩

end

/-! ## 3. From positions to bytes -/

section
variable {text : List Char} {k : Nat} {l : EndedLine} {p q : Position}

/-- The byte of a position: where its line starts, and the characters of the line up to the column.
Where there is no such line it is the end of the text. -/
theorem offsetIn_ofText (text : List Char) (p : Position) :
    offsetIn text (.ofText text) p = ((endedLines text)[p.line]?).elim (byteLength text) fun l =>
      lineByte text p.line + bytesToColumn p.column l.content := by
  rw [offsetIn, LineStarts.line?_ofText]
  cases at_p : (endedLines text)[p.line]? with
  | none => rfl
  | some l =>
    have breaks : ∀ c ∈ l.ending, isLineBreak c = true := by
      rcases (endedLines_cases at_p).2 with brk | ⟨none, -⟩
      · exact brk.isLineBreak
      · simp [none]
    rw [Option.map_some, Option.elim_some]
    dsimp only
    rw [sliceBytes_lineByte at_p, EndedLine.source,
      dropBreak_append (endedLines_cases at_p).1 breaks]

theorem isCut_of_whole {before after : List Char} (whole : Whole before after) :
    IsCut (byteLength before) (before ++ after) := by
  refine ⟨isBoundary_iff.mpr ⟨before, after, rfl, rfl⟩, ?_⟩
  rwa [takeBytes_byteLength, dropBytes_byteLength]

/-- Behind some of the characters of a line there is a cut. -/
theorem whole_of_content {front back : List Char} (at_k : (endedLines text)[k]? = some l)
    (content : l.content = front ++ back) :
    text = textAbove text k ++ front ++ (back ++ (l.ending ++ textFrom text (k + 1)))
      ∧ Whole (textAbove text k ++ front) (back ++ (l.ending ++ textFrom text (k + 1)))
      ∧ Unbroken front := by
  have split := split_at_line at_k
  have unbroken := (endedLines_cases at_k).1
  rw [content, List.append_assoc] at split
  rw [content] at unbroken
  have inside := (unbroken_append.mp unbroken).1
  have whole := whole_lines text k
  have from_k := List.append_cancel_left ((textAbove_append_textFrom text k).trans split)
  rw [from_k] at whole
  exact ⟨split.trans (List.append_assoc ..).symm, whole.append_unbroken inside, inside⟩

/-- Every position leads to a cut. -/
theorem isCut_offsetIn (text : List Char) (p : Position) :
    IsCut (offsetIn text (.ofText text) p) text := by
  rw [offsetIn_ofText]
  cases at_p : (endedLines text)[p.line]? with
  | none =>
    have whole : Whole text [] := fun h => absurd h.2 (by simp)
    have cut := isCut_of_whole whole
    rwa [List.append_nil] at cut
  | some l =>
    obtain ⟨front, back, content, bytes⟩ := exists_split_of_bytesToColumn p.column l.content
    obtain ⟨split, whole, -⟩ := whole_of_content at_p content
    have cut := isCut_of_whole whole
    rw [← split, byteLength_append] at cut
    rw [Option.elim_some, bytes]
    exact cut

theorem IsCut.le {n : Nat} (h : IsCut n text) : n ≤ byteLength text := by
  obtain ⟨before, after, rfl, rfl⟩ := isBoundary_iff.mp h.1
  rw [byteLength_append]
  exact Nat.le_add_right ..

/-- Positions in reading order lead to bytes in that order. -/
theorem offsetIn_mono (text : List Char) (h : p.le q = true) :
    offsetIn text (.ofText text) p ≤ offsetIn text (.ofText text) q := by
  have order : p.line < q.line ∨ p.line = q.line ∧ p.column ≤ q.column := by
    simpa [Position.le] using h
  have bound := (isCut_offsetIn text p).le
  rw [offsetIn_ofText] at bound ⊢
  rw [offsetIn_ofText]
  cases at_q : (endedLines text)[q.line]? with
  | none => exact bound
  | some m =>
    rcases order with above | ⟨same, columns⟩
    · have inside := (List.getElem?_eq_some_iff.mp at_q).1
      cases at_p : (endedLines text)[p.line]? with
      | none =>
        have := List.getElem?_eq_none_iff.mp at_p
        omega
      | some l =>
        have content := bytesToColumn_le p.column l.content
        have next := lineByte_succ at_p
        have further := lineByte_le text (show p.line + 1 ≤ q.line from above)
        rw [EndedLine.source, byteLength_append] at next
        rw [Option.elim_some, Option.elim_some]
        omega
    · rw [same, at_q]
      exact Nat.add_le_add_left (bytesToColumn_mono columns m.content) _

end

/-! ## 4. From bytes to positions -/

/-- A position that some place of the text has: it is on a line that is there, no further than the
end of its content, and not between the two units of a character. -/
def Position.IsProper (p : Position) (text : List Char) : Prop :=
  ∃ l, (endedLines text)[p.line]? = some l ∧ p.column ≤ unitLength l.content
    ∧ ¬IsTorn p.column l.content

/-- Two positions, the first before the second in reading order. -/
def Position.lt (p q : Position) : Bool :=
  p.line < q.line || (p.line == q.line && p.column < q.column)

section
variable {text : List Char} {a b m n : Nat} {p : Position}

/-- A proper position has a byte, and the byte has that position. -/
theorem position?_offsetIn (h : p.IsProper text) :
    position? text (.ofText text) (offsetIn text (.ofText text) p) = some p := by
  obtain ⟨l, at_p, le, between⟩ := h
  obtain ⟨front, back, content, column⟩ := exists_split_of_column le between
  obtain ⟨split, whole, inside⟩ := whole_of_content at_p content
  have byte : offsetIn text (.ofText text) p = byteLength (textAbove text p.line ++ front) := by
    rw [offsetIn_ofText, at_p, Option.elim_some, content, ← column, bytesToColumn_unitLength,
      byteLength_append]
    rfl
  have start := Location.through_textAbove .origin rfl (List.getElem?_eq_some_iff.mp at_p).1
  have above : Whole (textAbove text p.line) front := by
    have lines := whole_lines text p.line
    rw [List.append_cancel_left ((textAbove_append_textFrom text p.line).trans
      (split.trans (List.append_assoc ..)))] at lines
    exact lines.of_append
  have named := position?_byteLength whole
  rw [← split, Location.through_append _ above, Location.through_unbroken _ inside] at named
  rw [byte, named, Location.position, Location.after, start.1, start.2, column]
  simp [Location.origin]

/-- Of the starts of lines the last one up to a byte is the start of the line of the byte. -/
theorem lineByte_lineOf (text : List Char) (n : Nat) :
    (LineStarts.ofText text).lineOf n < (endedLines text).length
      ∧ lineByte text ((LineStarts.ofText text).lineOf n) ≤ n := by
  have starts := getElem?_starts 0 text
  rw [LineStarts.lineOf, LineStarts.ofText]
  dsimp only
  generalize all : 0 :: startsBehind 0 text = ss at starts ⊢
  have first : 0 < (ss.takeWhile (· ≤ n)).length := by
    rw [← all, List.takeWhile_cons_of_pos (by simp)]
    exact Nat.succ_pos _
  have last := Nat.sub_lt first Nat.one_pos
  have same := (List.takeWhile_prefix (l := ss) (· ≤ n)).getElem last
  have inside := last.trans_le (List.takeWhile_prefix (l := ss) (· ≤ n)).length_le
  have upTo := List.mem_takeWhile_imp (List.getElem_mem last)
  have start := starts ((ss.takeWhile (· ≤ n)).length - 1)
  rw [List.getElem?_eq_getElem inside, ← same] at start
  split at start
  · next there =>
    rw [Option.some.inj start, Nat.zero_add, decide_eq_true_eq] at upTo
    exact ⟨there, upTo⟩
  · exact absurd start (by simp)

/-- A byte between two characters has a position: the line that it falls on, and the units from the
start of that line. -/
theorem position?_of_isBoundary (boundary : isBoundary n text = true) :
    position? text (.ofText text) n = some ⟨(LineStarts.ofText text).lineOf n,
      unitLength (sliceBytes (lineByte text ((LineStarts.ofText text).lineOf n)) n text)⟩ := by
  have inside : min n (byteLength text) = n := by
    obtain ⟨before, after, rfl, rfl⟩ := isBoundary_iff.mp boundary
    rw [byteLength_append]
    omega
  have there := (lineByte_lineOf text n).1
  rw [position?]
  dsimp only
  rw [inside, if_pos boundary, LineStarts.line?_ofText, List.getElem?_eq_getElem there]
  rfl

/-- Lines do not go back as bytes go on. -/
theorem lineOf_mono (lines : LineStarts) (h : m ≤ n) : lines.lineOf m ≤ lines.lineOf n := by
  have shorter : lines.starts.takeWhile (· ≤ m)
      = (lines.starts.takeWhile (· ≤ n)).takeWhile (· ≤ m) := by
    rw [List.takeWhile_takeWhile]
    congr 1
    funext s
    simp only [decide_eq_true_eq]
    exact decide_eq_decide.mpr ⟨fun upTo => ⟨upTo, upTo.trans h⟩, And.left⟩
  rw [LineStarts.lineOf, LineStarts.lineOf, shorter]
  exact Nat.sub_le_sub_right (List.takeWhile_prefix _).length_le 1

/-- Between two cuts of a text there is a part of it. -/
theorem exists_between (first : isBoundary a text = true) (second : isBoundary b text = true)
    (le : a ≤ b) :
    ∃ before between after, text = before ++ between ++ after ∧ a = byteLength before
      ∧ b = byteLength (before ++ between) := by
  obtain ⟨before, behind, split, rfl⟩ := isBoundary_iff.mp first
  obtain ⟨front, after, split', rfl⟩ := isBoundary_iff.mp second
  rcases List.append_eq_append_iff.mp (split.symm.trans split') with
    ⟨between, rfl, rfl⟩ | ⟨between, rfl, rfl⟩
  · exact ⟨before, between, after, split', rfl, rfl⟩
  · have none : between = [] := by
      by_contra some_text
      have := byteLength_pos some_text
      rw [byteLength_append] at le
      omega
    subst none
    exact ⟨front, [], behind, by simpa using split, by simp, by simp⟩

/-- From a byte on, there are more units up to a later byte. -/
theorem unitLength_sliceBytes_lt (start : isBoundary a text = true)
    (first : isBoundary m text = true) (second : isBoundary n text = true) (le : a ≤ m)
    (less : m < n) :
    unitLength (sliceBytes a m text) < unitLength (sliceBytes a n text) := by
  obtain ⟨before, near, behind, split, rfl, rfl⟩ := exists_between start first le
  obtain ⟨front, far, after, split', same, rfl⟩ := exists_between first second less.le
  rw [List.append_assoc front] at split'
  obtain ⟨rfl, rfl⟩ := append_inj_of_byteLength (split.symm.trans split') same
  have some_text : far ≠ [] := by
    rintro rfl
    rw [List.append_nil] at less
    exact absurd less (Nat.lt_irrefl _)
  have whole : text = before ++ (near ++ far) ++ after := by
    rw [split]
    simp only [List.append_assoc]
  have wide : unitLength far ≠ 0 := fun zero => some_text (unitLength_eq_zero.mp zero)
  have short := sliceBytes_append before near (far ++ after)
  have long := sliceBytes_append before (near ++ far) after
  rw [← split, ← byteLength_append] at short
  rw [← whole, ← byteLength_append, ← List.append_assoc] at long
  rw [short, long, unitLength_append]
  omega

/-- Bytes between characters have positions in their order. -/
theorem position?_lt (first : isBoundary m text = true) (second : isBoundary n text = true)
    (less : m < n) :
    ∃ p q, position? text (.ofText text) m = some p ∧ position? text (.ofText text) n = some q
      ∧ p.lt q = true := by
  refine ⟨_, _, position?_of_isBoundary first, position?_of_isBoundary second, ?_⟩
  simp only [Position.lt, Bool.or_eq_true, Bool.and_eq_true, decide_eq_true_eq, beq_iff_eq]
  rcases (lineOf_mono (.ofText text) less.le).lt_or_eq with above | same
  · exact .inl above
  · refine .inr ⟨same, ?_⟩
    rw [← same]
    exact unitLength_sliceBytes_lt (lineByte_boundary text _) first second
      (lineByte_lineOf text m).2 less

end

/-! ## 5. Documents -/

/-- Of a document, however created and updated. A byte between two characters, but not inside a
line break, has a position that leads back to it; a proper position leads to a byte that has it. All
bytes between two characters have positions, which come in the order of the bytes. All positions,
proper or not, lead to bytes between two characters and not inside a line break, and these come in
the order of the positions. -/
theorem positions_correspond (uri language : String) (version : Int) (text : List Char)
    (us : List (List Change × Int)) :
    let d := (Document.create uri language version text).updates us
    (∀ n, IsCut n d.text → ∃ p, d.position? n = some p ∧ d.offset p = n)
      ∧ (∀ p : Position, p.IsProper d.text → d.position? (d.offset p) = some p)
      ∧ (∀ m n, isBoundary m d.text = true → isBoundary n d.text = true → m < n →
        ∃ p q, d.position? m = some p ∧ d.position? n = some q ∧ p.lt q = true)
      ∧ (∀ p q : Position, p.le q = true → d.offset p ≤ d.offset q)
      ∧ ∀ p, IsCut (d.offset p) d.text := by
  intro d
  have lines : d.lines = .ofText d.text :=
    ((Document.upToDate_create uri language version text).updates us).1.lines
  simp only [Document.position?, Document.offset, lines]
  exact ⟨fun n => position?_of_isCut, fun p => position?_offsetIn, fun m n => position?_lt,
    fun p q => offsetIn_mono d.text, isCut_offsetIn d.text⟩

end OffsideMarkup
