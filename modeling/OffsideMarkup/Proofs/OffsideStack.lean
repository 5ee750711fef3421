/-
OffsideMarkup.Proofs.OffsideStack — nesting by a stack.

The grammar nests lines by cutting: it looks ahead for the indentation of the next line with content
and takes off the lines of a block. The same rule can be told in one pass over the lines, with a
stack of open blocks and no look ahead (`owners`). This module proves that both give every line the
same owner.

* `owners_congr` — what is open matters only to the next line with content.
* `owners_nest` — a block by itself: the pass gives its lines the owners that nesting gives them,
  and behind the block it goes on as if the block had never been opened.
* `offside_nesting` — the whole file, by the nodes of its tree.

The proof follows the recursion of `Line.nest`. Its invariant is about the ends of a block: all
lines with content in it are indented at least as far as the block, the next one behind it is not,
and the block does not end in blank lines. `blockLength` cuts so that all three hold.
-/
import OffsideMarkup.Grammar.Offside
import OffsideMarkup.Proofs.LineShape
import OffsideMarkup.Proofs.LineTree

namespace OffsideMarkup

/-! ## 1. The pass -/

/-- A block that is open. -/
structure OpenBlock where
  /-- The number of the element that opened it; none is the file. -/
  owner : Option Nat
  /-- The indentation of its first line with content. -/
  level : Nat
  deriving DecidableEq, Repr

/-- Closes the blocks that a line is not indented far enough for. -/
def closeDeeper (indent : Nat) : List OpenBlock → List OpenBlock
  | [] => []
  | b :: bs => if indent < b.level then closeDeeper indent bs else b :: bs

/-- The blocks open around a line with content, given the line with content before it. -/
def openAround (previous : Option LineShape) (indent : Nat) (stack : List OpenBlock) :
    List OpenBlock :=
  match previous with
  | none => closeDeeper indent stack
  | some l =>
    if l.element ∧ l.indent < indent then ⟨some l.number, indent⟩ :: stack
    else closeDeeper indent stack

/-- Each line with the element it belongs to. A blank line goes with the line behind it, and at the
end of the file it belongs to the file. -/
def owners (previous : Option LineShape) (stack : List OpenBlock) :
    List LineShape → List (Nat × Option Nat)
  | [] => []
  | l :: ls =>
    if l.blank then
      let later := owners previous stack ls
      (l.number, later.head?.bind (·.2)) :: later
    else
      let around := openAround previous l.indent stack
      (l.number, around.head?.bind (·.owner)) :: owners (some l) around ls

/-- The pass over a whole text. At its start only the file is open. -/
def ownersOfText (text : List Char) : List (Nat × Option Nat) :=
  owners none [⟨none, 0⟩] (lineShapes text)

/-! ## 2. What the pass depends on -/

/-- The next line with content. -/
def contentAhead (ls : List LineShape) : Option LineShape := ls.find? (!·.blank)

theorem owners_of_blank {l : LineShape} (h : l.blank = true) (previous : Option LineShape)
    (stack : List OpenBlock) (ls : List LineShape) :
    owners previous stack (l :: ls) =
      (l.number, (owners previous stack ls).head?.bind (·.2)) :: owners previous stack ls := by
  rw [owners, if_pos h]

theorem owners_of_content {l : LineShape} (h : l.blank = false) (previous : Option LineShape)
    (stack : List OpenBlock) (ls : List LineShape) :
    owners previous stack (l :: ls) =
      (l.number, (openAround previous l.indent stack).head?.bind (·.owner))
        :: owners (some l) (openAround previous l.indent stack) ls := by
  rw [owners, if_neg (by simp [h])]

/-- Two states that open the same blocks around the next line with content are as good as each
other. -/
theorem owners_congr {p q : Option LineShape} {s t : List OpenBlock} {ls : List LineShape}
    (h : ∀ l ∈ contentAhead ls, openAround p l.indent s = openAround q l.indent t) :
    owners p s ls = owners q t ls := by
  induction ls with
  | nil => rfl
  | cons l ls ih =>
    cases blank : l.blank with
    | true =>
      have later := ih fun m hm => h m (by
        rw [contentAhead, List.find?_cons_of_neg (by simp [blank])]
        exact hm)
      rw [owners_of_blank blank, owners_of_blank blank, later]
    | false =>
      have here := h l (by
        rw [contentAhead, List.find?_cons_of_pos (by simp [blank])]
        rfl)
      rw [owners_of_content blank, owners_of_content blank, here]

/-- A block is closed where a line is not indented far enough for it. -/
theorem openAround_pop {b : OpenBlock} {indent : Nat} (h : indent < b.level)
    (stack : List OpenBlock) :
    openAround none indent (b :: stack) = openAround none indent stack := by
  rw [openAround, openAround, closeDeeper, if_pos h]

theorem openAround_stay {b : OpenBlock} {indent : Nat} (h : b.level ≤ indent)
    (stack : List OpenBlock) : openAround none indent (b :: stack) = b :: stack := by
  rw [openAround, closeDeeper, if_neg (by omega)]

/-- A line that opens no block leaves no trace. -/
theorem openAround_plain {l : LineShape} {indent : Nat} (h : ¬(l.element ∧ l.indent < indent))
    (stack : List OpenBlock) :
    openAround (some l) indent stack = openAround none indent stack := by
  simp only [openAround, if_neg h]

/-- The next line with content is in the block or behind it. -/
theorem contentAhead_append {xs ys : List LineShape} {l : LineShape}
    (h : l ∈ contentAhead (xs ++ ys)) :
    l ∈ contentAhead xs ∨ contentAhead xs = none ∧ l ∈ contentAhead ys := by
  rw [contentAhead, List.find?_append, Option.mem_def] at h
  simp only [contentAhead, Option.mem_def]
  cases first : xs.find? (!·.blank) with
  | none => rw [first, Option.none_or] at h; exact .inr ⟨rfl, h⟩
  | some m => rw [first, Option.some_or] at h; exact .inl h

/-! ## 3. Where a block ends -/

namespace Row

theorem ahead_eq (rows : List Row) :
    Row.ahead rows = (contentAhead (rows.map Row.shape)).elim 0 LineShape.indent := by
  induction rows with
  | nil => rfl
  | cons r rows ih =>
    rw [Row.ahead, List.map_cons, contentAhead]
    cases blank : r.isBlank with
    | true =>
      have : r.shape.blank = true := blank
      rw [if_pos rfl, List.find?_cons_of_neg (by simp [this]), ih, contentAhead]
    | false =>
      have : r.shape.blank = false := blank
      rw [if_neg (by simp), List.find?_cons_of_pos (by simp [this])]
      rfl

theorem ahead_of_contentAhead {rows : List Row} {l : LineShape}
    (h : l ∈ contentAhead (rows.map Row.shape)) : Row.ahead rows = l.indent := by
  rw [ahead_eq, Option.mem_def.mp h]
  rfl

/-- Lines with content in a block are indented at least as far as the block. -/
theorem le_level_of_block {level : Nat} {rows : List Row} :
    ∀ r ∈ rows.take (Row.blockLength level rows), r.isBlank = false → level ≤ r.level := by
  induction rows with
  | nil => intro r hr; simp at hr
  | cons r rows ih =>
    rw [Row.blockLength]
    split
    · next inside =>
      rw [List.take_succ_cons]
      refine List.forall_mem_cons.mpr ⟨fun content => ?_, ih⟩
      rw [Row.ahead, content] at inside
      simpa using inside
    · intro s hs
      simp at hs

/-- The next line with content behind a block is not. -/
theorem lt_level_behind_block {level : Nat} {rows : List Row} :
    ∀ l ∈ contentAhead ((rows.drop (Row.blockLength level rows)).map Row.shape),
      l.indent < level := by
  induction rows with
  | nil => intro l hl; simp [contentAhead] at hl
  | cons r rows ih =>
    rw [Row.blockLength]
    split
    · rw [List.drop_succ_cons]
      exact ih
    · next outside =>
      intro l hl
      rw [List.drop_zero] at hl
      rw [ahead_of_contentAhead hl] at outside
      omega

/-- A block does not end in a blank line. -/
theorem getLast?_of_block {level : Nat} (pos : 0 < level) {rows : List Row} :
    ∀ r ∈ (rows.take (Row.blockLength level rows)).getLast?, r.isBlank = false := by
  induction rows with
  | nil => intro r hr; simp at hr
  | cons r rows ih =>
    rw [Row.blockLength]
    split
    · next inside =>
      intro s hs
      rw [List.take_succ_cons] at hs
      cases more : rows.take (Row.blockLength level rows) with
      | cons u us =>
        rw [more, List.getLast?_cons_cons, ← more] at hs
        exact ih s hs
      | nil =>
        rw [more] at hs
        obtain rfl : r = s := by simpa using hs
        cases blank : r.isBlank with
        | false => rfl
        | true =>
          -- a blank line is in the block for the sake of the next one, which is in it as well
          rw [Row.ahead, if_pos blank] at inside
          cases rows with
          | nil => rw [Row.ahead] at inside; omega
          | cons u us =>
            rw [Row.blockLength, if_pos inside, List.take_succ_cons] at more
            exact absurd more (by simp)
    · intro s hs
      simp at hs

end Row

/-! ## 4. One block -/

/-- Rows that are all of a block, in front of what comes behind it. -/
structure IsBlock (block : OpenBlock) (rows : List Row) (tail : List LineShape) : Prop where
  inside : ∀ r ∈ rows, r.isBlank = false → block.level ≤ r.level
  outside : ∀ l ∈ contentAhead tail, l.indent < block.level
  /-- Only the file may end in blank lines. -/
  closed : ∀ r ∈ rows.getLast?, r.isBlank = true → block.owner = none ∧ tail = []

namespace IsBlock

variable {block : OpenBlock} {r : Row} {rows : List Row} {tail : List LineShape}

theorem of_suffix (others : List Row) (h : IsBlock block (others ++ rows) tail) :
    IsBlock block rows tail := by
  refine ⟨fun s hs => h.inside s (List.mem_append_right others hs), h.outside, fun s hs => ?_⟩
  refine h.closed s ?_
  rw [Option.mem_def] at hs ⊢
  rw [List.getLast?_append, hs]
  rfl

theorem behind (h : IsBlock block (r :: rows) tail) : IsBlock block rows tail :=
  IsBlock.of_suffix [r] h

/-- The lines under an element are a block of their own. -/
theorem under {f : Frame} {t : Tag} (h : IsBlock block (.element f t :: rows) tail)
    (deeper : f.level < Row.ahead rows) :
    IsBlock ⟨some f.start.line, Row.ahead rows⟩
      (rows.take (Row.blockLength (Row.ahead rows) rows))
      ((rows.drop (Row.blockLength (Row.ahead rows) rows)).map Row.shape ++ tail) := by
  refine ⟨Row.le_level_of_block, ?_, fun s hs blank => ?_⟩
  · intro l hl
    rcases contentAhead_append hl with first | ⟨-, later⟩
    · exact Row.lt_level_behind_block l first
    · have above : block.level ≤ f.level := h.inside _ List.mem_cons_self rfl
      have := h.outside l later
      dsimp only
      omega
  · have content := Row.getLast?_of_block (by omega) s hs
    rw [content] at blank
    exact absurd blank (by decide)

end IsBlock

/-- The first line of a block stands directly in it. -/
theorem parentsOf_nest_cons (owner : Option Nat) (r : Row) (rows : List Row) :
    ∃ later, Line.parentsOf owner (Line.nest (r :: rows))
      = (r.frame.start.line, owner) :: later := by
  cases r with
  | simple f b => rw [Line.nest, Line.parentsOf, Line.parents]; exact ⟨_, rfl⟩
  | element f t =>
    rw [Line.nest]
    dsimp only
    split <;> rw [Line.parentsOf, Line.parents] <;> exact ⟨_, rfl⟩

/-- Behind its last line a block is as good as closed. -/
theorem owners_close {block : OpenBlock} {tail : List LineShape}
    (outside : ∀ l ∈ contentAhead tail, l.indent < block.level) (stack : List OpenBlock) :
    owners none (block :: stack) tail = owners none stack tail :=
  owners_congr fun l hl => openAround_pop (outside l hl) stack

/-- A line with content that is indented far enough stands in the block and leaves it open. -/
theorem owners_row {block : OpenBlock} {r : Row} (content : r.isBlank = false)
    (level : block.level ≤ r.level) (stack : List OpenBlock) (ls : List LineShape) :
    owners none (block :: stack) (r.shape :: ls) =
      (r.frame.start.line, block.owner) :: owners (some r.shape) (block :: stack) ls := by
  have here : openAround none r.shape.indent (block :: stack) = block :: stack :=
    openAround_stay level stack
  rw [owners_of_content content, here]
  rfl

/-- A blank line goes where the lines behind it go, which is the same block. -/
theorem owners_blank {block : OpenBlock} {r : Row} {rows : List Row} {tail : List LineShape}
    (h : IsBlock block (r :: rows) tail) (blank : r.isBlank = true) (stack : List OpenBlock)
    (later : owners none (block :: stack) (rows.map Row.shape ++ tail) =
      Line.parentsOf block.owner (Line.nest rows) ++ owners none stack tail) :
    owners none (block :: stack) (r.shape :: (rows.map Row.shape ++ tail)) =
      (r.frame.start.line, block.owner)
        :: (Line.parentsOf block.owner (Line.nest rows) ++ owners none stack tail) := by
  rw [owners_of_blank blank, later]
  cases rows with
  | cons s rows =>
    obtain ⟨more, first⟩ := parentsOf_nest_cons block.owner s rows
    rw [first]
    rfl
  | nil =>
    obtain ⟨file, nothing⟩ := h.closed r rfl blank
    rw [file, nothing, Line.nest]
    rfl

/-- The first line with content under an element opens the block of the element. -/
theorem owners_open {block : OpenBlock} {f : Frame} {t : Tag} {rows : List Row}
    {tail : List LineShape} (deeper : f.level < Row.ahead rows) (stack : List OpenBlock) :
    owners (some (Row.element f t).shape) (block :: stack) (rows.map Row.shape ++ tail) =
      owners none (⟨some f.start.line, Row.ahead rows⟩ :: block :: stack)
        (rows.map Row.shape ++ tail) := by
  refine owners_congr fun l hl => ?_
  rcases contentAhead_append hl with first | ⟨nothing, -⟩
  · have indent := Row.ahead_of_contentAhead first
    rw [openAround_stay (by dsimp only; omega)]
    have opens : (Row.element f t).shape.element ∧ (Row.element f t).shape.indent < l.indent :=
      ⟨rfl, by rw [← indent]; exact deeper⟩
    simp only [openAround, if_pos opens, indent]
    rfl
  · rw [Row.ahead_eq, nothing] at deeper
    exact absurd deeper (Nat.not_lt_zero _)

/-- An element without lines under it opens nothing. -/
theorem owners_single {block : OpenBlock} {f : Frame} {t : Tag} {rows : List Row}
    {tail : List LineShape} (h : IsBlock block (.element f t :: rows) tail)
    (deeper : ¬f.level < Row.ahead rows) (stack : List OpenBlock) :
    owners (some (Row.element f t).shape) (block :: stack) (rows.map Row.shape ++ tail) =
      owners none (block :: stack) (rows.map Row.shape ++ tail) := by
  refine owners_congr fun l hl => openAround_plain ?_ _
  rintro ⟨-, further⟩
  have further : f.level < l.indent := further
  rcases contentAhead_append hl with first | ⟨-, behind⟩
  · rw [Row.ahead_of_contentAhead first] at deeper
    exact deeper further
  · have above : block.level ≤ f.level := h.inside _ List.mem_cons_self rfl
    have := h.outside l behind
    omega

/-- The pass gives the lines of a block the owners that nesting gives them, and goes on behind the
block as if it had not been opened. -/
theorem owners_nest {block : OpenBlock} {rows : List Row} {tail : List LineShape}
    (h : IsBlock block rows tail) (stack : List OpenBlock) :
    owners none (block :: stack) (rows.map Row.shape ++ tail) =
      Line.parentsOf block.owner (Line.nest rows) ++ owners none stack tail := by
  fun_induction Line.nest rows generalizing block stack tail with
  | case1 => exact owners_close h.outside stack
  | case2 f body rows ih =>
    have later := ih h.behind stack
    rw [List.map_cons, List.cons_append, Line.parentsOf, Line.parents]
    cases blank : (Row.simple f body).isBlank with
    | false =>
      have plain : owners (some (Row.simple f body).shape) (block :: stack)
          (rows.map Row.shape ++ tail)
          = owners none (block :: stack) (rows.map Row.shape ++ tail) :=
        owners_congr fun l _ => openAround_plain (fun e => absurd e.1 Bool.false_ne_true) _
      rw [owners_row blank (h.inside _ List.mem_cons_self blank), plain, later]
      rfl
    | true => exact owners_blank h blank stack later
  | case3 f tag rows level deeper n =>
    rename_i ihBlock ihRest
    have rest : IsBlock block (rows.drop n) tail := by
      refine IsBlock.of_suffix (.element f tag :: rows.take n) ?_
      rw [List.cons_append, List.take_append_drop]
      exact h
    have whole : rows.map Row.shape ++ tail
        = (rows.take n).map Row.shape ++ ((rows.drop n).map Row.shape ++ tail) := by
      rw [← List.append_assoc, ← List.map_append, List.take_append_drop]
    rw [List.map_cons, List.cons_append, owners_row rfl (h.inside _ List.mem_cons_self rfl),
      owners_open deeper, whole, ihBlock (h.under deeper) (block :: stack), ihRest rest stack,
      Line.parentsOf, Line.parents, List.cons_append, List.cons_append, List.append_assoc]
    rfl
  | case4 f tag rows level deeper =>
    rename_i ih
    rw [List.map_cons, List.cons_append, owners_row rfl (h.inside _ List.mem_cons_self rfl),
      owners_single h deeper, ih h.behind stack, Line.parentsOf, Line.parents]
    rfl

/-! ## 5. The end of a block -/

theorem row_mem_of_mem_nest {rows : List Row} {l : Line} (h : l ∈ Line.nest rows) :
    l.row ∈ rows := by
  fun_induction Line.nest rows with
  | case1 => exact absurd h (by simp)
  | case2 f b rows ih =>
    rcases List.mem_cons.mp h with rfl | h
    · exact List.mem_cons_self
    · exact List.mem_cons_of_mem _ (ih h)
  | case3 f t rows level deeper n =>
    rename_i ihBlock ihRest
    rcases List.mem_cons.mp h with rfl | h
    · exact List.mem_cons_self
    · exact List.mem_cons_of_mem _ (List.mem_of_mem_drop (ihRest h))
  | case4 f t rows level deeper =>
    rename_i ih
    rcases List.mem_cons.mp h with rfl | h
    · exact List.mem_cons_self
    · exact List.mem_cons_of_mem _ (ih h)

/-- Nesting keeps the rows and their order. -/
theorem map_row_withinAll_nest (rows : List Row) :
    (Line.withinAll (Line.nest rows)).map Line.row = rows := by
  fun_induction Line.nest rows with
  | case1 => rfl
  | case2 f b rows ih => rw [Line.withinAll, Line.within, List.map_append, ih]; rfl
  | case3 f t rows level deeper n =>
    rename_i ihBlock ihRest
    rw [Line.withinAll, Line.within, List.map_append, List.map_cons, ihBlock, ihRest,
      List.cons_append, List.take_append_drop]
    rfl
  | case4 f t rows level deeper =>
    rename_i ih
    rw [Line.withinAll, Line.within, List.map_append, ih]
    rfl

/-- The lines of a file are the rows of its text. -/
theorem map_row_withinAll_lines (variant : Variant) (text : List Char) :
    (Line.withinAll (SourceFile.ofText variant text).lines).map Line.row = Row.ofText text :=
  map_row_withinAll_nest (Row.ofText text)

/-- The lexer reads every line of a file, also one that is nested in others. -/
theorem exists_readsLine_of_mem {variant : Variant} {text : List Char} {l : Line}
    (hl : l ∈ Line.withinAll (SourceFile.ofText variant text).lines) :
    ∃ (p e : Scanner) (tl : TokenLine), p.ReadsLine tl e ∧ l.row = Row.ofTokenLine tl := by
  have row : l.row ∈ Row.ofText text :=
    map_row_withinAll_lines variant text ▸ List.mem_map_of_mem hl
  obtain ⟨tl, htl, is⟩ := List.mem_map.mp row
  obtain ⟨k, at_k⟩ := List.mem_iff_getElem?.mp htl
  obtain ⟨f, reads, -⟩ := Scanner.reads_ofText text
  obtain ⟨p, e, -, line, -⟩ := reads.line_at at_k
  exact ⟨p, e, tl, line, is.symm⟩

theorem mem_getLast?_cons {α : Type} {a b : α} {xs : List α} (h : b ∈ (a :: xs).getLast?) :
    xs = [] ∧ b = a ∨ b ∈ xs.getLast? := by
  cases xs with
  | nil => exact .inl ⟨rfl, by simpa using h.symm⟩
  | cons x xs => rw [List.getLast?_cons_cons] at h; exact .inr h

theorem getLast?_cons_of_mem {α : Type} {a b : α} {xs : List α} (h : b ∈ xs.getLast?) :
    b ∈ (a :: xs).getLast? := by
  cases xs with
  | nil => exact absurd h (by simp)
  | cons x xs => rw [List.getLast?_cons_cons]; exact h

theorem eq_nil_of_nest {rows : List Row} (h : Line.nest rows = []) : rows = [] := by
  cases rows with
  | nil => rfl
  | cons r rows =>
    obtain ⟨later, first⟩ := parentsOf_nest_cons none r rows
    rw [h] at first
    exact absurd first (by simp [Line.parentsOf])

/-- If a list of lines ends in a blank one when nested, it ended in that line before. -/
theorem getLast?_nest {rows : List Row} {l : Line} (last : l ∈ (Line.nest rows).getLast?)
    (blank : l.isBlank = true) : l.row ∈ rows.getLast? := by
  fun_induction Line.nest rows with
  | case1 => exact absurd last (by simp)
  | case2 f b rows ih =>
    rcases mem_getLast?_cons last with ⟨none, rfl⟩ | later
    · rw [eq_nil_of_nest none]
      rfl
    · exact getLast?_cons_of_mem (ih later)
  | case3 f t rows level deeper n =>
    rename_i ihBlock ihRest
    rcases mem_getLast?_cons last with ⟨-, rfl⟩ | later
    · exact absurd blank Bool.false_ne_true
    · refine getLast?_cons_of_mem ?_
      have found := ihRest later
      rw [List.getLast?_drop] at found
      split at found
      · exact absurd found (by simp)
      · exact found
  | case4 f t rows level deeper =>
    rename_i ih
    rcases mem_getLast?_cons last with ⟨-, rfl⟩ | later
    · exact absurd blank Bool.false_ne_true
    · exact getLast?_cons_of_mem (ih later)

/-- The last line directly under an element is a line of the file, and it is not blank. -/
theorem last_of_within {rows : List Row} {l m : Line} (h : l ∈ Line.withinAll (Line.nest rows))
    (last : m ∈ l.children.getLast?) : m.row ∈ rows ∧ m.isBlank = false := by
  fun_induction Line.nest rows with
  | case1 => exact absurd h (by simp [Line.withinAll])
  | case2 f b rows ih =>
    rw [Line.withinAll, Line.within, List.mem_append, List.mem_singleton] at h
    rcases h with rfl | later
    · exact absurd last (by simp [Line.children])
    · exact ⟨List.mem_cons_of_mem _ (ih later).1, (ih later).2⟩
  | case3 f t rows level deeper n =>
    rename_i ihBlock ihRest
    rw [Line.withinAll, Line.within, List.mem_append, List.mem_cons] at h
    rcases h with (rfl | under) | later
    · have place := row_mem_of_mem_nest (List.mem_of_getLast? (Option.mem_def.mp last))
      refine ⟨List.mem_cons_of_mem _ (List.mem_of_mem_take place), ?_⟩
      cases blank : m.isBlank with
      | false => rfl
      | true =>
        have content := Row.getLast?_of_block (by omega) m.row (getLast?_nest last blank)
        rw [isBlank_row, blank] at content
        exact absurd content (by decide)
    · have found := ihBlock under
      exact ⟨List.mem_cons_of_mem _ (List.mem_of_mem_take found.1), found.2⟩
    · have found := ihRest later
      exact ⟨List.mem_cons_of_mem _ (List.mem_of_mem_drop found.1), found.2⟩
  | case4 f t rows level deeper =>
    rename_i ih
    rw [Line.withinAll, Line.within, List.mem_append, List.mem_cons] at h
    rcases h with (rfl | under) | later
    · exact absurd last (by simp [Line.children])
    · exact absurd under (by simp [Line.withinAll])
    · exact ⟨List.mem_cons_of_mem _ (ih later).1, (ih later).2⟩

/-! ## 6. The file -/

/-- The lines of a file are a block that nothing closes. -/
theorem isBlock_file (rows : List Row) : IsBlock ⟨none, 0⟩ rows [] :=
  ⟨fun _ _ _ => Nat.zero_le _, fun l hl => absurd hl (by simp [contentAhead]),
    fun _ _ _ => ⟨rfl, rfl⟩⟩

theorem parentsOf_ofText (variant : Variant) (text : List Char) :
    Line.parentsOf none (SourceFile.ofText variant text).lines = ownersOfText text := by
  have nested := owners_nest (isBlock_file (Row.ofText text)) []
  rw [List.append_nil, shapes_ofText, owners, List.append_nil] at nested
  exact nested.symm

/-- A row of a text has the shape of the line of its number. -/
theorem shape_of_mem {text : List Char} {r : Row} (h : r ∈ Row.ofText text) :
    (lineShapes text)[r.frame.start.line]? = some r.shape := by
  have mem : r.shape ∈ lineShapes text := by
    rw [← shapes_ofText]
    exact List.mem_map_of_mem h
  rw [lineShapes, List.mem_mapIdx] at mem
  obtain ⟨k, hk, shape⟩ := mem
  have number : r.frame.start.line = k := congrArg LineShape.number shape.symm
  rw [number, lineShapes, List.getElem?_mapIdx, List.getElem?_eq_getElem hk, Option.map_some, shape]

/-- In the tree of a file, every line is where a pass over the lines with a stack of open blocks
puts it. The last line directly under an element is never blank. -/
theorem offside_nesting (variant : Variant) (text : List Char) :
    (SourceFile.ofText variant text).root.lineParents
        = (ownersOfText text).map (fun (number, owner) => (number, some (ownerNode owner)))
      ∧ ∀ n ∈ (SourceFile.ofText variant text).root.subtrees, n.label.isLine = true →
          ∀ c ∈ n.children.getLast?, c.label.isLine = true →
            ((lineShapes text)[c.label.extent.start.line]?).map LineShape.blank = some false := by
  constructor
  · rw [lineParents_root, parentsOf_ofText variant]
  · intro n hn parent c hc line
    obtain ⟨l, hl, rfl⟩ := exists_line_in_file hn parent
    obtain ⟨m, hm, rfl⟩ := exists_last_line hc line
    obtain ⟨row, content⟩ := last_of_within hl hm
    have start : m.node.label.extent.start.line = m.row.frame.start.line := by
      cases m <;> rw [Line.node] <;> rfl
    rw [start, shape_of_mem row, Option.map_some, Row.shape, isBlank_row, content]

end OffsideMarkup
