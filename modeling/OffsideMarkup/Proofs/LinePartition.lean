/-
OffsideMarkup.Proofs.LinePartition — the table of lines cuts a text into its lines.

The table is made in one pass that looks one character ahead, and asked by a search for the border
between the starts up to a byte and those behind it. `lines_partition` says what comes of the two
together: the lines of the table are the text, piece by piece, each piece has one line break and has
it at its end, only the last one has none, and a byte falls on exactly one of them.

* `LineStarts.starts_eq` — the starts are the bytes at which the lines of `EndedLine` start, and
  these rise strictly (`lineByte_lt`), because a line that is not the last has its break.
* `LineStarts.IsBorder` — what a search for the border has to find, however it goes about it. In a
  table that rises there is one border only, and `lineOf` is the line in front of it.
-/
import OffsideMarkup.Proofs.Positions

namespace OffsideMarkup

/-! ## 1. Where lines start -/

section
variable {text : List Char} {i j k : Nat} {l : EndedLine}

/-- A line that is not the last one ends with a break, also as seen from what comes behind it. -/
theorem isBreak_ending (at_k : (endedLines text)[k]? = some l)
    (inner : k + 1 < (endedLines text).length) : IsBreak l.ending (textFrom text (k + 1)) := by
  have split := split_at_line at_k
  have whole := whole_lines text (k + 1)
  have front : textAbove text (k + 1) = textAbove text k ++ (l.content ++ l.ending) := by
    have both : textAbove text (k + 1) ++ textFrom text (k + 1)
        = textAbove text k ++ (l.content ++ l.ending) ++ textFrom text (k + 1) := by
      rw [textAbove_append_textFrom]
      simpa using split
    exact List.append_cancel_right both
  rw [front, ← List.append_assoc] at whole
  rcases (endedLines_cases at_k).2 with brk | ⟨-, last⟩
  · rw [← List.nil_append (textFrom text (k + 1))]
    exact brk.append (by rw [List.append_nil]; exact whole.behind)
  · omega

/-- Every text has a line, however short. -/
theorem endedLines_ne_nil (text : List Char) : endedLines text ≠ [] := by
  induction text using byLines with
  | last cs unbroken => simp [endedLines_last unbroken]
  | line cs brk after unbroken h => simp [endedLines_line unbroken h]

/-- The last line has no break. -/
theorem ending_eq_nil (at_k : (endedLines text)[k]? = some l)
    (last : k + 1 = (endedLines text).length) : l.ending = [] := by
  induction text using byLines generalizing k with
  | last cs unbroken =>
    have mem := List.mem_of_getElem? at_k
    rw [endedLines_last unbroken, List.mem_singleton] at mem
    simp [mem]
  | line cs brk after unbroken h ih =>
    rw [endedLines_line unbroken h] at at_k last
    cases k with
    | zero => simp [endedLines_ne_nil after] at last
    | succ k => exact ih (by simpa using at_k) (by simpa using last)

theorem lineByte_lt (less : i < j) (inside : j < (endedLines text).length) :
    lineByte text i < lineByte text j := by
  have at_i : (endedLines text)[i]? = some (endedLines text)[i] := by simp
  have some_text : (endedLines text)[i].source ≠ [] := by
    obtain ⟨c, cs, ending, -⟩ := (isBreak_ending at_i (by omega)).exists_cons
    simp [EndedLine.source, ending]
  have wide := byteLength_pos some_text
  have next := lineByte_succ at_i
  have further := lineByte_le text (show i + 1 ≤ j from less)
  omega

/-- All lines together are the text. -/
theorem lineByte_length (text : List Char) :
    lineByte text (endedLines text).length = byteLength text := by
  rw [lineByte, List.take_length, flatMap_source_endedLines]

end

/-- Spans side by side, from one byte to another. -/
def Span.Join (first last : Nat) : List Span → Prop
  | [] => first = last
  | s :: ss => s.start = first ∧ s.start ≤ s.stop ∧ Join s.stop last ss

/-- Spans from each number of a rising sequence to the next lie side by side. -/
theorem Span.join_range' {f : Nat → Nat} (rises : ∀ k, f k ≤ f (k + 1)) (first count : Nat) :
    Join (f first) (f (first + count))
      ((List.range' first count).map fun k => ⟨f k, f (k + 1)⟩) := by
  induction count generalizing first with
  | zero => simp [Join]
  | succ count ih =>
    have later := ih (first + 1)
    rw [Nat.add_right_comm] at later
    simp only [List.range'_succ, List.map_cons, Join]
    exact ⟨trivial, rises first, later⟩

namespace LineStarts

/-- The spans of all lines of the table. -/
def spans (s : LineStarts) : List (Option Span) := (List.range s.count).map s.line?

section
variable (text : List Char)

theorem starts_eq : (ofText text).starts
    = (List.range (endedLines text).length).map (lineByte text) := by
  refine List.ext_getElem? fun k => ?_
  have start := getElem?_starts 0 text k
  simp only [ofText, start, List.getElem?_map]
  split <;> simp_all

theorem pairwise_starts : (ofText text).starts.Pairwise (· < ·) := by
  rw [starts_eq, List.pairwise_map]
  refine List.pairwise_lt_range.imp_of_mem fun _ hj less => ?_
  exact lineByte_lt less (List.mem_range.mp hj)

theorem spans_eq : (ofText text).spans
    = ((List.range (endedLines text).length).map fun k =>
      (⟨lineByte text k, lineByte text (k + 1)⟩ : Span)).map some := by
  rw [spans, count_ofText, List.map_map]
  refine List.map_congr_left fun k hk => ?_
  have at_k := List.getElem?_eq_getElem (List.mem_range.mp hk)
  rw [line?_ofText, at_k]
  simp [lineByte_succ at_k]

/-- The characters of a line of the table are those of the line. -/
theorem slice?_lineByte {k : Nat} {l : EndedLine} (at_k : (endedLines text)[k]? = some l) :
    slice? ⟨lineByte text k, lineByte text (k + 1)⟩ text = some l.source := by
  have start := lineByte_boundary text k
  have stop := lineByte_boundary text (k + 1)
  have order := lineByte_le text (Nat.le_succ k)
  have fits : Span.fitsIn ⟨lineByte text k, lineByte text (k + 1)⟩ text = true := by
    simp [Span.fitsIn, start, stop, order]
  rw [slice?, if_pos fits, lineByte_succ at_k]
  exact congrArg some (sliceBytes_lineByte at_k)

end

/-! ## 2. The line of a byte -/

/-- The byte falls on the line: the line starts there or in front of it, and the next one, if there
is one, behind it. -/
def HasByte (s : LineStarts) (k byte : Nat) : Prop :=
  ∃ start, s.starts[k]? = some start ∧ start ≤ byte ∧ ∀ next ∈ s.starts[k + 1]?, byte < next

/-- So many lines start up to a byte, and all others behind it. -/
def IsBorder (s : LineStarts) (byte n : Nat) : Prop :=
  n ≤ s.count ∧ ∀ i start, s.starts[i]? = some start → (start ≤ byte ↔ i < n)

/-- In a list that rises, the first ones up to a bound are all of them. -/
theorem le_iff_lt_length_takeWhile {ss : List Nat} (rises : ss.Pairwise (· < ·))
    {byte i start : Nat} (at_i : ss[i]? = some start) :
    start ≤ byte ↔ i < (ss.takeWhile (· ≤ byte)).length := by
  induction ss generalizing i with
  | nil => simp at at_i
  | cons s ss ih =>
    obtain ⟨first, rest⟩ := List.pairwise_cons.mp rises
    by_cases upTo : s ≤ byte
    · rw [List.takeWhile_cons_of_pos (by simpa using upTo), List.length_cons]
      cases i with
      | zero =>
        obtain rfl : s = start := by simpa using at_i
        simp [upTo]
      | succ i =>
        rw [List.getElem?_cons_succ] at at_i
        rw [ih rest at_i, Nat.succ_lt_succ_iff]
    · have behind : s ≤ start := by
        rcases List.mem_cons.mp (List.mem_of_getElem? at_i) with rfl | mem
        · exact Nat.le_refl _
        · exact (first start mem).le
      rw [List.takeWhile_cons_of_neg (by simpa using upTo)]
      simp only [List.length_nil, Nat.not_lt_zero, iff_false]
      omega

section
variable {text : List Char} {byte n m k : Nat}

/-- There is one border only. -/
theorem IsBorder.unique {s : LineStarts} (h : s.IsBorder byte n) (h' : s.IsBorder byte m) :
    n = m := by
  have order {a b : Nat} (ha : s.IsBorder byte a) (hb : s.IsBorder byte b) : ¬a < b := by
    intro less
    have inside : a < s.starts.length := less.trans_le hb.1
    have at_a := List.getElem?_eq_getElem inside
    have upTo := (hb.2 a _ at_a).mpr less
    exact absurd ((ha.2 a _ at_a).mp upTo) (Nat.lt_irrefl a)
  have := order h h'
  have := order h' h
  omega

theorem isBorder_lineOf (text : List Char) (byte : Nat) :
    (ofText text).IsBorder byte ((ofText text).lineOf byte + 1) := by
  -- The first line starts at byte 0, so the border is never in front of it.
  have some_line : 0 < ((ofText text).starts.takeWhile (· ≤ byte)).length :=
    (le_iff_lt_length_takeWhile (pairwise_starts text) (by simp [ofText])).mp (Nat.zero_le byte)
  rw [lineOf, Nat.sub_add_cancel some_line]
  refine ⟨(List.takeWhile_prefix _).length_le, fun i start at_i => ?_⟩
  exact le_iff_lt_length_takeWhile (pairwise_starts text) at_i

/-- A byte falls on the line in front of the border. -/
theorem hasByte_iff_isBorder :
    (ofText text).HasByte k byte ↔ (ofText text).IsBorder byte (k + 1) := by
  have rises := List.pairwise_iff_getElem.mp (pairwise_starts text)
  constructor
  · rintro ⟨start, at_k, le, later⟩
    obtain ⟨inside, rfl⟩ := List.getElem?_eq_some_iff.mp at_k
    refine ⟨inside, fun i s at_i => ?_⟩
    obtain ⟨hi, rfl⟩ := List.getElem?_eq_some_iff.mp at_i
    rcases Nat.lt_trichotomy i k with less | rfl | greater
    · have := rises i k hi inside less
      omega
    · omega
    · have next := later _ (List.getElem?_eq_getElem (show k + 1 < _ by omega))
      rcases Nat.eq_or_lt_of_le (show k + 1 ≤ i from greater) with rfl | further
      · omega
      · have := rises (k + 1) i (by omega) hi further
        omega
  · rintro ⟨inside, border⟩
    have at_k := List.getElem?_eq_getElem (show k < (ofText text).starts.length from inside)
    refine ⟨_, at_k, (border k _ at_k).mpr (Nat.lt_succ_self k), fun next at_next => ?_⟩
    have := (border (k + 1) next at_next).not.mpr (Nat.lt_irrefl _)
    omega

theorem lineOf_eq_iff : (ofText text).lineOf byte = k ↔ (ofText text).HasByte k byte := by
  rw [hasByte_iff_isBorder]
  constructor
  · rintro rfl
    exact isBorder_lineOf text byte
  · intro border
    exact Nat.succ_injective ((isBorder_lineOf text byte).unique border)

end

end LineStarts

/-! ## 3. Texts -/

/-- The table of lines of a text is a partition of it. The first line starts at byte 0, and the
starts rise strictly. The lines lie side by side from there to the end of the text, and cut out of
the text they are pieces that make up the text again: each is a stretch without line breaks and,
unless it is the last one, one break behind it, which the text behind it does not make longer.
A byte falls on exactly one line, which is the one that `lineOf` gives; and a search that finds the
border between the starts up to a byte and the others has found the line behind that one. -/
theorem lines_partition (text : List Char) :
    let table := LineStarts.ofText text
    table.starts.head? = some 0 ∧ table.starts.Pairwise (· < ·)
      ∧ (∃ (spans : List Span) (lines : List EndedLine), table.spans = spans.map some
        ∧ Span.Join 0 (byteLength text) spans
        ∧ spans.map (slice? · text) = lines.map (some ·.source)
        ∧ lines.flatMap EndedLine.source = text
        ∧ ∀ k l, lines[k]? = some l → Unbroken l.content
          ∧ if k + 1 < table.count then
              IsBreak l.ending ((lines.drop (k + 1)).flatMap EndedLine.source)
            else l.ending = [])
      ∧ (∀ k, table.line? k = none ↔ table.count ≤ k)
      ∧ (∀ byte k, table.lineOf byte = k ↔ table.HasByte k byte)
      ∧ ∀ byte n, table.IsBorder byte n ↔ n = table.lineOf byte + 1 := by
  intro table
  have count : table.count = (endedLines text).length := LineStarts.count_ofText text
  refine ⟨rfl, LineStarts.pairwise_starts text, ⟨_, endedLines text, LineStarts.spans_eq text, ?_,
    ?_, flatMap_source_endedLines text, fun k l at_k => ⟨(endedLines_cases at_k).1, ?_⟩⟩,
    fun k => ?_, fun byte k => LineStarts.lineOf_eq_iff, fun byte n => ⟨fun border => ?_, ?_⟩⟩
  · have join := Span.join_range' (fun k => lineByte_le text (Nat.le_succ k)) 0
      (endedLines text).length
    rw [Nat.zero_add, lineByte_length] at join
    rw [List.range_eq_range']
    exact join
  · refine List.ext_getElem? fun k => ?_
    simp only [List.getElem?_map]
    cases at_k : (endedLines text)[k]? with
    | none => simpa using at_k
    | some l =>
      have inside := (List.getElem?_eq_some_iff.mp at_k).1
      simp [List.getElem?_range inside, LineStarts.slice?_lineByte text at_k]
  · rw [count]
    split
    · next inner => exact isBreak_ending at_k inner
    · next last =>
      have inside := (List.getElem?_eq_some_iff.mp at_k).1
      exact ending_eq_nil at_k (by omega)
  · rw [LineStarts.line?_ofText, Option.map_eq_none_iff, List.getElem?_eq_none_iff, count]
  · exact border.unique (LineStarts.isBorder_lineOf text byte)
  · rintro rfl
    exact LineStarts.isBorder_lineOf text byte

end OffsideMarkup
