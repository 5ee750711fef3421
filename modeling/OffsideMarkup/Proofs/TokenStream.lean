/-
OffsideMarkup.Proofs.TokenStream — the lexer comes to the end of every text and leaves nothing out.

Two tokens have no characters: the end of the text, and the comment of a blank line. The second is
why a step need not shorten the text, and why progress is not seen from one step. It is the only
such token in front of the end, and a break stands behind it, which the next step takes.

* `Scanner.Advances` — what one step over a text gives: where it starts, which bytes it takes, what
  space it carries in front, when it takes nothing, and that the end of the text is never left.
* `Scanner.Stands.advances` — every step gives that, wherever the scanner stands.
* `Scanner.length_run_le` — the end is reached in two steps for each character and one more.

A comment has no space in front (`Scanner.Opened`): a line is opened at column 0, where space is a
token of its own, or by that token, behind which no space is left.
-/
import OffsideMarkup.Proofs.Coordinates

namespace OffsideMarkup

/-! ## 1. Lexemes without characters -/

/-- Of all that is a lexeme, only a line break opens a line. -/
theorem Lexes.lineBreak_of_opensLine {opening : Bool} {cs lx rest : List Char} {k : Kind}
    (l : Lexes opening cs k lx rest) (opens : k.opensLine = true) : k = .lineBreak := by
  cases l with
  | sigil cs sig => exact absurd (opens.symm.trans (opensLine_of_sigil sig)) (by decide)
  | lineBreak => rfl
  | _ => exact absurd opens (by decide)

/-- A lexeme without characters ends the text, or is the comment of a blank line. -/
theorem Lexes.of_nil_lexeme {opening : Bool} {cs rest : List Char} {k : Kind}
    (l : Lexes opening cs k [] rest) : k = .endOfText ∨ k = .comment := by
  generalize nothing : [] = lx at l
  cases l with
  | endOfText => exact .inl rfl
  | comment => exact .inr rfl
  | lineBreak _ brk => cases brk <;> exact absurd nothing (by simp)
  | _ => exact absurd nothing (by simp)

/-- Only a line that is being opened has a comment, and if it is empty, a break stands behind it. -/
theorem Lexes.of_empty_comment {opening : Bool} {cs rest : List Char}
    (l : Lexes opening cs .comment [] rest) :
    opening = true ∧ ∃ c ∈ rest.head?, isLineBreak c = true := by
  generalize nothing : [] = lx at l
  cases l with
  | sigil cs sig => exact absurd rfl (sigil_is_content sig).2.2.2.2.2.1
  | @comment c cs first plain =>
    refine ⟨first, ?_⟩
    have brk : isLineBreak c = true := by
      by_contra content
      rw [List.takeWhile_cons_of_pos (by simpa using content)] at nothing
      exact absurd nothing (by simp)
    rw [List.dropWhile_cons_of_neg (by simp [brk])]
    exact ⟨c, rfl, brk⟩

theorem Token.offset_stop (t : Token) : t.stop.offset = t.start.offset + byteLength t.source :=
  (Node.spans_leaf (.ofToken t)).1

/-- An extent is empty if nothing stands between its ends. -/
theorem Token.isEmpty_extent (t : Token) : t.extent.isEmpty = true ↔ t.source = [] := by
  rw [extent, Extent.isEmpty, beq_iff_eq]
  dsimp only
  rw [t.offset_stop]
  constructor
  · intro same
    by_contra solid
    have := byteLength_pos solid
    omega
  · intro nothing
    rw [nothing]
    rfl

namespace Scanner

variable {text : List Char} {s p : Scanner}

/-! ## 2. Many steps -/

theorem scanTimes_add (m n : Nat) (s : Scanner) :
    scanTimes (m + n) s = scanTimes n (scanTimes m s) := by
  induction m generalizing s with
  | zero => rw [Nat.zero_add]; rfl
  | succ m ih => rw [Nat.succ_add]; exact ih s.scan

theorem scanTimes_succ (n : Nat) (s : Scanner) : scanTimes (n + 1) s = (scanTimes n s).scan :=
  scanTimes_add n 1 s

/-- Behind everything, every step gives the end of the text, without characters and without space,
and does not move. -/
theorem token_scanTimes_of_rest_nil (h : s.rest = []) (n : Nat) :
    (scanTimes (n + 1) s).token = ⟨.endOfText, s.token.stop, [], []⟩ := by
  have here : s.scan = ⟨⟨.endOfText, s.token.stop, [], []⟩, []⟩ := by
    rw [scan, h]
    simp [cut, lexeme]
  induction n generalizing s with
  | zero => exact congrArg token here
  | succ n ih =>
    have stop : s.scan.token.stop = s.token.stop := by
      rw [here]
      exact Token.stop_of_source_nil (by simp) rfl
    rw [← stop]
    refine ih (s := s.scan) (by rw [here]) ?_
    rw [here, scan]
    simp [cut, lexeme]

/-- The scanners of a run are those after each number of steps. -/
theorem run_eq (s : Scanner) :
    s.run = (List.range s.run.length).map fun n => scanTimes (n + 1) s := by
  induction s using run.induct with
  | case1 s atEnd =>
    rw [run, if_pos atEnd]
    rfl
  | case2 s more ih =>
    rw [run, if_neg more, List.length_cons, List.range_succ_eq_map, List.map_cons, List.map_map]
    exact congrArg (s.scan :: ·) ih

/-- The run ends where the text does. -/
theorem kind_run (s : Scanner) : (scanTimes s.run.length s).token.kind = .endOfText := by
  induction s using run.induct with
  | case1 s atEnd =>
    rw [run, if_pos atEnd]
    exact atEnd
  | case2 s more ih =>
    rw [run, if_neg more]
    exact ih

/-- Together, the tokens of a run are all that is left. -/
theorem source_run (s : Scanner) : s.run.flatMap (·.token.source) = s.rest := by
  induction s using run.induct with
  | case1 s atEnd =>
    have whole := s.source_scan
    rw [(scan_of_endOfText atEnd).2, List.append_nil] at whole
    rw [run, if_pos atEnd, List.flatMap_singleton, whole]
  | case2 s more ih =>
    rw [run, if_neg more, List.flatMap_cons, ih, source_scan]

/-- Each step uses up one of those that are left. Where one leads to no end of the text, there is
some text, and so there are two left. -/
theorem length_run_le (s : Scanner) : s.run.length ≤ max 1 s.scansLeft := by
  induction s using run.induct with
  | case1 s atEnd =>
    rw [run, if_pos atEnd]
    exact Nat.le_max_left ..
  | case2 s more ih =>
    have fewer := scansLeft_scan_lt more
    have some_text : 0 < s.rest.length :=
      List.length_pos_iff.mpr fun nothing => more (scan_of_rest_nil nothing).1
    have two : 2 ≤ s.scansLeft := by
      rw [scansLeft]
      omega
    rw [run, if_neg more, List.length_cons]
    omega

/-! ## 3. One step -/

/-- A line that is being opened starts at column 0, unless its space has been taken already. -/
def Opened (s : Scanner) : Prop :=
  s.token.kind.opensLine = true →
    s.token.stop.column = 0 ∨ s.rest.takeWhile isInlineSpace = []

theorem opened_scan (s : Scanner) : s.scan.Opened := by
  intro opens
  rcases s.scan_cases with ⟨-, -, e⟩ | ⟨k, lx, rest, -, l, e⟩
  · rw [e]
    exact .inr (takeWhile_dropWhile_inlineSpace s.rest)
  · have brk : s.scan.token.kind = .lineBreak := by
      rw [e] at opens ⊢
      exact l.lineBreak_of_opensLine opens
    exact .inl (opensLine_of_lineBreak brk).1

theorem opened_scanTimes (text : List Char) (n : Nat) : (scanTimes n (start text)).Opened := by
  cases n with
  | zero => exact fun _ => .inl rfl
  | succ n =>
    rw [scanTimes_succ]
    exact opened_scan _

/-- The comment of a blank line has no characters, nor space in front, and a break stands behind
it. -/
theorem Opened.blank (h : s.Opened) (blank : s.scan.token.isEmptyComment = true) :
    s.scan.token.source = [] ∧ ∃ c ∈ s.scan.rest.head?, isLineBreak c = true := by
  rw [Token.isEmptyComment, Bool.and_eq_true, beq_iff_eq, List.isEmpty_iff] at blank
  obtain ⟨kind, empty⟩ := blank
  rcases s.scan_cases with ⟨-, -, e⟩ | ⟨k, lx, rest, content, l, e⟩
  · rw [e] at kind
    exact absurd kind (by simp)
  · rw [e] at kind empty ⊢
    obtain rfl : k = .comment := kind
    obtain rfl : lx = [] := empty
    obtain ⟨opens, behind⟩ := l.of_empty_comment
    have space : s.rest.takeWhile isInlineSpace = [] := by
      by_contra some_space
      exact (h opens).elim (fun column => content ⟨column, some_space⟩) some_space
    exact ⟨by rw [Token.source, space]; rfl, behind⟩

/-- What a step gives, over a text that the scanner stands in. -/
structure Advances (text : List Char) (p : Scanner) : Prop where
  /-- It starts where the last one stopped. -/
  start : p.scan.token.start = p.token.stop
  /-- It takes the bytes from there to where it stops. -/
  slice : sliceBytes p.scan.token.start.offset p.scan.token.stop.offset text = p.scan.token.source
  /-- In front of the token is space of its line. -/
  space : ∀ c ∈ p.scan.token.trivia, isInlineSpace c = true
  /-- If it takes nothing, it is at the end or in a blank line. -/
  nothing : p.scan.token.extent.isEmpty = true →
    p.scan.token.kind = .endOfText ∨ p.scan.token.isEmptyComment = true
  /-- In a blank line it takes nothing, and a break comes next. -/
  blank : p.scan.token.isEmptyComment = true → p.scan.token.extent.isEmpty = true
    ∧ ∃ c ∈ (dropBytes p.scan.token.stop.offset text).head?, isLineBreak c = true
  /-- The end of the text has all of the text in front of it, and is all that ever follows. -/
  ended : p.scan.token.kind = .endOfText → p.scan.token.stop.offset = byteLength text
    ∧ ∀ n, (scanTimes (n + 1) p.scan).token = ⟨.endOfText, p.scan.token.stop, [], []⟩

/-- What the scanner has left is the text behind the bytes in front of it. -/
theorem Stands.dropBytes (h : s.Stands text) :
    OffsideMarkup.dropBytes s.token.stop.offset text = s.rest := by
  obtain ⟨before, rfl, -, stop⟩ := h.stop
  rw [stop, Location.offset_origin_through, dropBytes_byteLength]

/-- The bytes of a token are its characters. -/
theorem Stands.slice (h : p.Stands text) :
    sliceBytes p.scan.token.start.offset p.scan.token.stop.offset text = p.scan.token.source := by
  obtain ⟨before, rfl, -, stop⟩ := h.stop
  rw [Token.offset_stop, start_scan, stop, Location.offset_origin_through, ← p.source_scan,
    ← List.append_assoc, sliceBytes_append]

theorem Stands.advances (h : p.Stands text) (opened : p.Opened) : p.Advances text where
  start := p.start_scan
  slice := h.slice
  space := p.inlineSpace_trivia
  nothing := by
    intro empty
    rw [Token.isEmpty_extent] at empty
    rcases p.scan_cases with ⟨-, space, e⟩ | ⟨k, lx, rest, -, l, e⟩
    · rw [e] at empty
      exact absurd (List.append_eq_nil_iff.mp empty).2 space
    · rw [e] at empty ⊢
      obtain rfl : lx = [] := (List.append_eq_nil_iff.mp empty).2
      rcases l.of_nil_lexeme with rfl | rfl
      · exact .inl rfl
      · exact .inr rfl
  blank := by
    intro blank
    rw [Token.isEmpty_extent, h.scan.dropBytes]
    exact opened.blank blank
  ended := by
    intro atEnd
    have nothing := (scan_of_endOfText atEnd).2
    refine ⟨?_, token_scanTimes_of_rest_nil nothing⟩
    obtain ⟨before, split, -, stop⟩ := h.scan.stop
    rw [nothing, List.append_nil] at split
    rw [stop, Location.offset_origin_through, split]

end Scanner

/-! ## 4. All steps over a text -/

/-- Over every text, every step gives what `Scanner.Advances` says, and the steps up to the end are
the tokens of the text. There are at most two for each character and one more, and one after the
other their bytes are the text. -/
theorem token_stream (text : List Char) :
    let reached n := Scanner.scanTimes n (.start text)
    let steps := (tokens text).length
    (∀ n, (reached n).Advances text)
      ∧ tokens text = (List.range steps).map (fun n => (reached (n + 1)).token)
      ∧ (reached steps).token.kind = .endOfText
      ∧ steps ≤ 2 * text.length + 1
      ∧ (tokens text).flatMap (fun t => sliceBytes t.start.offset t.stop.offset text) = text := by
  intro reached steps
  have advances : ∀ n, (reached n).Advances text := fun n =>
    ((Scanner.stands_start text).scanTimes n).advances (Scanner.opened_scanTimes text n)
  have length : steps = (Scanner.start text).run.length := List.length_map _
  have given : tokens text = (List.range steps).map (fun n => (reached (n + 1)).token) := by
    rw [length, tokens]
    conv_lhs => rw [Scanner.run_eq]
    rw [List.map_map]
    rfl
  refine ⟨advances, given, ?_, ?_, ?_⟩
  · rw [length]
    exact Scanner.kind_run _
  · have left : (Scanner.start text).scansLeft = 2 * text.length + 1 := rfl
    have bound := (Scanner.start text).length_run_le
    omega
  · calc (tokens text).flatMap (fun t => sliceBytes t.start.offset t.stop.offset text)
        = (tokens text).flatMap Token.source := by
          rw [given]
          refine List.flatMap_congr fun t ht => ?_
          obtain ⟨n, -, rfl⟩ := List.mem_map.mp ht
          rw [show reached (n + 1) = (reached n).scan from Scanner.scanTimes_succ n _]
          exact (advances n).slice
      _ = text := by
          rw [tokens, List.flatMap_map]
          exact Scanner.source_run _

/-- On a text of one blank line the comment takes nothing, and a break and the end follow. -/
theorem token_stream_of_blank_line :
    (Scanner.start ['\n']).scan.token.isEmptyComment = true
      ∧ (Scanner.start ['\n']).scan.token.extent.isEmpty = true
      ∧ ((List.range 3).map fun n => (Scanner.scanTimes (n + 1) (.start ['\n'])).token.kind)
        = [.comment, .lineBreak, .endOfText] :=
  ⟨by decide, (((token_stream ['\n']).1 0).blank (by decide)).1, by decide⟩

end OffsideMarkup
