/-
OffsideMarkup.Proofs.EndedLine — the lines of a text, with what ends each of them apart.

`physicalLines` keeps a line and its break together, and knows no line behind the last break. For
what the lexer does on a line the two have to be told apart, and there the end of the text ends a
line like any other, even one without characters. `endedLines` cuts a text in this way: every line
but the last has its break, and the last one has none.

* `byLines` — induction over a text, line by line.
* `physicalLines_eq` — joined, and without the last line if it is empty, these are the lines of
  `PhysicalLine`.
* `drop_endedLines` — where the lexer counts `n` lines in front of it, at the start of a line, the
  text to come has the lines of the whole text but the first `n`.
* `LineStarts.line?_ofText` — these are the lines of the table: each starts behind those in front
  of it, and is as long as it says.
-/
import OffsideMarkup.Proofs.LineTable

namespace OffsideMarkup

/-! ## 1. Lines and their endings -/

/-- A line of a text: the characters in front of its break, and the break. -/
structure EndedLine where
  content : List Char
  /-- The break, or nothing at the end of the text. -/
  ending : List Char
  deriving DecidableEq, Repr

namespace EndedLine

/-- With more text in front. -/
def prepend (cs : List Char) (l : EndedLine) : EndedLine := ⟨cs ++ l.content, l.ending⟩

/-- The line as it stands in the text. -/
def source (l : EndedLine) : List Char := l.content ++ l.ending

/-- All the space that the line starts with. -/
def space (l : EndedLine) : List Char := l.content.takeWhile isInlineSpace

/-- The line behind that. -/
def body (l : EndedLine) : List Char := l.content.dropWhile isInlineSpace

/-- There is something else than space on the line. -/
def hasContent (l : EndedLine) : Bool := l.content.any (!isInlineSpace ·)

end EndedLine

/-- The lines of a text. The last one has no break; behind a break at the end of the text it has no
characters at all. -/
def endedLines : List Char → List EndedLine
  | [] => [⟨[], []⟩]
  | '\r' :: '\n' :: cs => ⟨[], ['\r', '\n']⟩ :: endedLines cs
  | c :: cs =>
    if isLineBreak c then ⟨[], [c]⟩ :: endedLines cs
    else (endedLines cs).modifyHead (.prepend [c])

section
variable {cs brk after : List Char}

theorem endedLines_char {c : Char} (h : isLineBreak c = false) (cs : List Char) :
    endedLines (c :: cs) = (endedLines cs).modifyHead (.prepend [c]) := by
  rw [endedLines]
  · rw [if_neg (by simp [h])]
  · rintro ds rfl
    exact absurd h (by decide)

theorem endedLines_break (h : IsBreak brk after) :
    endedLines (brk ++ after) = ⟨[], brk⟩ :: endedLines after := by
  cases h with
  | pair => rfl
  | single h alone =>
    rw [List.singleton_append, endedLines, if_pos h]
    rintro ds rfl
    intro rest
    exact alone ⟨rfl, by rw [rest]; rfl⟩

/-- What stands inside a line goes in front of the first line. -/
theorem endedLines_prepend (h : Unbroken cs) (after : List Char) :
    endedLines (cs ++ after) = (endedLines after).modifyHead (.prepend cs) := by
  induction cs with
  | nil =>
    rw [List.nil_append]
    cases endedLines after <;> rfl
  | cons c cs ih =>
    rw [List.cons_append, endedLines_char (h c List.mem_cons_self),
      ih fun d hd => h d (List.mem_cons_of_mem c hd), List.modifyHead_modifyHead]
    rfl

theorem endedLines_last (h : Unbroken cs) : endedLines cs = [⟨cs, []⟩] := by
  have last := endedLines_prepend h []
  rwa [List.append_nil, endedLines, List.modifyHead_cons, EndedLine.prepend, List.append_nil]
    at last

theorem endedLines_line (h : Unbroken cs) (brk_after : IsBreak brk after) :
    endedLines (cs ++ (brk ++ after)) = ⟨cs, brk⟩ :: endedLines after := by
  rw [endedLines_prepend h, endedLines_break brk_after, List.modifyHead_cons, EndedLine.prepend,
    List.append_nil]

end

/-- Induction over a text by its lines: the last one, which has no break, or a line with its
break in front of others. -/
theorem byLines {motive : List Char → Prop} (last : ∀ cs, Unbroken cs → motive cs)
    (line : ∀ cs brk after, Unbroken cs → IsBreak brk after → motive after →
      motive (cs ++ (brk ++ after))) (text : List Char) : motive text := by
  have within : ∀ front, Unbroken front → motive (front ++ text) := by
    induction text using byBreaks with
    | nil =>
      intro front unbroken
      rw [List.append_nil]
      exact last front unbroken
    | char c cs inner ih =>
      intro front unbroken
      rw [List.append_cons]
      exact ih _ (unbroken_append.mpr ⟨unbroken, List.forall_mem_singleton.mpr inner⟩)
    | brk brk after h ih =>
      intro front unbroken
      exact line front brk after unbroken h (ih [] (by simp [Unbroken]))
  exact within [] (by simp [Unbroken])

/-! ## 2. The same lines, joined -/

/-- With their breaks, the lines are those of the text; a line of no characters is none of these. -/
theorem physicalLines_eq (text : List Char) :
    physicalLines text = ((endedLines text).map EndedLine.source).filter (!·.isEmpty) := by
  induction text using byLines with
  | last cs unbroken =>
    rw [endedLines_last unbroken, List.map_singleton, EndedLine.source, List.append_nil]
    cases cs with
    | nil => rfl
    | cons c cs =>
      have rest : RestOfLine [] (c :: cs) := by
        have := (RestOfLine.nothing rfl : RestOfLine [] []).prepend unbroken
        rwa [List.append_nil] at this
      have one := rest.physicalLines (by simp)
      rw [List.append_nil] at one
      rw [one]
      rfl
  | line cs brk after unbroken h ih =>
    obtain ⟨c, ds, rfl, -⟩ := h.exists_cons
    have rest : RestOfLine after (cs ++ c :: ds) := (RestOfLine.brk h).prepend unbroken
    rw [endedLines_line unbroken h, List.map_cons, EndedLine.source,
      List.filter_cons_of_pos (by simp), ← ih, ← List.append_assoc,
      rest.physicalLines (by simp)]

/-! ## 3. Lines by their numbers -/

/-- The lines of a text from one on are the lines of the text behind the start of that line. -/
theorem drop_endedLines_through (l : Location) {before after : List Char}
    (whole : Whole before after) (column : (l.through before).column = 0) :
    (endedLines (before ++ after)).drop ((l.through before).line - l.line) = endedLines after := by
  induction before using byLines generalizing l with
  | last cs unbroken =>
    rw [Location.through_unbroken l unbroken] at column ⊢
    have column : l.column + unitLength cs = 0 := column
    have nothing : cs = [] := unitLength_eq_zero.mp (by omega)
    have here : (l.after cs).line - l.line = 0 := Nat.sub_self l.line
    rw [here, nothing]
    rfl
  | line cs brk before unbroken h ih =>
    have next : l.through (cs ++ (brk ++ before))
        = (((l.after cs).after brk).nextLine).through before := by
      have torn : Whole cs (brk ++ before) := (whole_nil _).append_unbroken unbroken
      rw [Location.through_append l torn, Location.through_unbroken l unbroken,
        Location.through_break _ h]
    rw [next] at column ⊢
    have further : l.line + 1 ≤ (((l.after cs).after brk).nextLine.through before).line := by
      rw [Location.line_through]
      exact Nat.le_add_right ..
    have number : (((l.after cs).after brk).nextLine.through before).line - l.line
        = ((((l.after cs).after brk).nextLine.through before).line - (l.line + 1)) + 1 := by
      omega
    have whole' : Whole before after := whole.behind.behind
    rw [number, List.append_assoc, List.append_assoc,
      endedLines_line unbroken (h.append whole.behind), List.drop_succ_cons]
    exact ih _ whole' column

/-- At the start of a line of a text, the text to come has the lines from the one with that number
on. -/
theorem drop_endedLines {before after : List Char} (whole : Whole before after)
    (column : (Location.origin.through before).column = 0) :
    (endedLines (before ++ after)).drop (Location.origin.through before).line
      = endedLines after :=
  drop_endedLines_through .origin whole column

/-! ## 4. Lines of the table -/

theorem flatMap_source_endedLines (text : List Char) :
    (endedLines text).flatMap EndedLine.source = text := by
  induction text using byLines with
  | last cs unbroken => simp [endedLines_last unbroken, EndedLine.source]
  | line cs brk after unbroken h ih =>
    rw [endedLines_line unbroken h, List.flatMap_cons, ih, EndedLine.source, List.append_assoc]

/-- No line is broken, and only the last one has no break behind it. -/
theorem endedLines_cases {k : Nat} {l : EndedLine} {text : List Char}
    (at_k : (endedLines text)[k]? = some l) :
    Unbroken l.content
      ∧ (IsBreak l.ending [] ∨ l.ending = [] ∧ k + 1 = (endedLines text).length) := by
  induction text using byLines generalizing k with
  | last cs unbroken =>
    rw [endedLines_last unbroken] at at_k ⊢
    cases k with
    | zero =>
      obtain rfl := Option.some.inj at_k
      exact ⟨unbroken, .inr ⟨rfl, rfl⟩⟩
    | succ k => simp at at_k
  | line cs brk after unbroken h ih =>
    rw [endedLines_line unbroken h] at at_k ⊢
    cases k with
    | zero =>
      obtain rfl := Option.some.inj at_k
      exact ⟨unbroken, .inl h.alone⟩
    | succ k =>
      rw [List.getElem?_cons_succ] at at_k
      simpa using ih at_k

/-- The byte that a line starts at. -/
def lineByte (text : List Char) (k : Nat) : Nat :=
  byteLength (((endedLines text).take k).flatMap EndedLine.source)

theorem getElem?_starts (here : Nat) (text : List Char) (k : Nat) :
    (here :: startsBehind here text)[k]?
      = if k < (endedLines text).length then some (here + lineByte text k) else none := by
  induction text using byLines generalizing here k with
  | last cs unbroken =>
    have alone := startsBehind_unbroken here unbroken []
    rw [List.append_nil, startsBehind] at alone
    rw [alone, endedLines_last unbroken]
    cases k <;> rfl
  | line cs brk after unbroken h ih =>
    rw [startsBehind_unbroken here unbroken, startsBehind_break _ h, endedLines_line unbroken h]
    cases k with
    | zero => rfl
    | succ k =>
      have start : lineByte (cs ++ (brk ++ after)) (k + 1)
          = byteLength cs + byteLength brk + lineByte after k := by
        simp [lineByte, endedLines_line unbroken h, EndedLine.source, byteLength_append,
          Nat.add_assoc]
      rw [List.getElem?_cons_succ, ih, start, ← Nat.add_assoc, ← Nat.add_assoc]
      simp

theorem LineStarts.count_ofText (text : List Char) :
    (ofText text).count = (endedLines text).length := by
  have starts := getElem?_starts 0 text
  show (0 :: startsBehind 0 text).length = _
  generalize 0 :: startsBehind 0 text = ss at starts ⊢
  refine Nat.le_antisymm (List.getElem?_eq_none_iff.mp ?_) (Nat.le_of_not_lt fun short => ?_)
  · rw [starts, if_neg (Nat.lt_irrefl _)]
  · have none := List.getElem?_eq_none_iff.mpr (Nat.le_refl ss.length)
    rw [starts, if_pos short] at none
    exact absurd none (by simp)

/-- The characters from the start of a line on, as many as it has, are those of the line. -/
theorem sliceBytes_lineByte {k : Nat} {l : EndedLine} {text : List Char}
    (at_k : (endedLines text)[k]? = some l) :
    sliceBytes (lineByte text k) (lineByte text k + byteLength l.source) text = l.source := by
  have split : (endedLines text).take k ++ l :: (endedLines text).drop (k + 1)
      = endedLines text := by
    obtain ⟨inside, rfl⟩ := List.getElem?_eq_some_iff.mp at_k
    rw [← List.drop_eq_getElem_cons inside, List.take_append_drop]
  have whole := congrArg (List.flatMap EndedLine.source) split
  rw [flatMap_source_endedLines, List.flatMap_append, List.flatMap_cons, ← List.append_assoc]
    at whole
  have slice := sliceBytes_append (((endedLines text).take k).flatMap EndedLine.source) l.source
    (((endedLines text).drop (k + 1)).flatMap EndedLine.source)
  rwa [whole] at slice

/-- A line of the table goes from the start of that line of the text over all of it. -/
theorem LineStarts.line?_ofText (text : List Char) (k : Nat) :
    (ofText text).line? k = (endedLines text)[k]?.map fun l =>
      ⟨lineByte text k, lineByte text k + byteLength l.source⟩ := by
  have starts : ∀ n, (ofText text).starts[n]?
      = if n < (endedLines text).length then some (lineByte text n) else none := fun n => by
    have := getElem?_starts 0 text n
    rwa [Nat.zero_add] at this
  rw [line?, starts, starts]
  cases at_k : (endedLines text)[k]? with
  | none =>
    rw [if_neg (Nat.not_lt.mpr (List.getElem?_eq_none_iff.mp at_k))]
    rfl
  | some l =>
    have inside : k < (endedLines text).length := (List.getElem?_eq_some_iff.mp at_k).1
    have next : lineByte text (k + 1) = lineByte text k + byteLength l.source := by
      rw [lineByte, List.take_add_one, at_k, List.flatMap_append, byteLength_append]
      simp [lineByte]
    rw [if_pos inside, Option.map_some, ← next]
    show some (Span.mk _ _) = _
    congr 2
    split
    · rfl
    · next last =>
      -- Behind the last line the text ends.
      have whole : (endedLines text).take (k + 1) = endedLines text :=
        List.take_of_length_le (Nat.not_lt.mp last)
      rw [lineByte, whole, flatMap_source_endedLines]
      rfl

end OffsideMarkup
