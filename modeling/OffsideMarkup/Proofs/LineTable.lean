/-
OffsideMarkup.Proofs.LineTable — one text, two ways to count its lines.

The lexer counts lines and columns while it reads. A document keeps the table of its lines and
measures a column from the start of the line. `Location.through` is the first way without tokens:
where a text ends that starts at a location. The two ways agree wherever no line break is torn apart
(`Whole`):

* `position?_byteLength` — the table gives the position that reading up to there gives;
* `offsetIn_through` — that position leads back to the byte.

A text is taken apart from the front, a character inside a line or a whole break at a time
(`byBreaks`), and both ways have one equation for each. The line that a byte stands on is known by
what is read since the last break (`lastLine_cases`) and by what comes up to the next one
(`nextBreak_cases`).
-/
import OffsideMarkup.Document
import OffsideMarkup.Proofs.ByteCut
import OffsideMarkup.Proofs.PhysicalLine

namespace OffsideMarkup

/-! ## 1. Cuts that tear no break apart -/

/-- Between two parts of a text there is no line feed that belongs to a carriage return. -/
def Whole (before after : List Char) : Prop :=
  ¬(before.getLast? = some '\r' ∧ after.head? = some '\n')

theorem whole_nil (after : List Char) : Whole [] after := fun h => absurd h.1 (by simp)

theorem Whole.behind {xs ys zs : List Char} (h : Whole (xs ++ ys) zs) : Whole ys zs := by
  rintro ⟨last, next⟩
  refine h ⟨?_, next⟩
  rw [List.getLast?_append, last, Option.some_or]

theorem Whole.tail {c : Char} {cs zs : List Char} (h : Whole (c :: cs) zs) : Whole cs zs :=
  Whole.behind (show Whole ([c] ++ cs) zs from h)

/-- A break stays whole with more text behind the text. -/
theorem IsBreak.append {brk cs more : List Char} (h : IsBreak brk cs)
    (whole : Whole (brk ++ cs) more) : IsBreak brk (cs ++ more) := by
  cases h with
  | pair => exact .pair _
  | @single c _ h alone =>
    refine .single h ?_
    rintro ⟨rfl, next⟩
    cases cs with
    | nil => exact whole ⟨rfl, by simpa using next⟩
    | cons d ds => exact alone ⟨rfl, by simpa using next⟩

/-- Behind a stretch inside a line a cut is as good as in front of it. -/
theorem Whole.append_unbroken {before cs after : List Char} (whole : Whole before (cs ++ after))
    (unbroken : Unbroken cs) : Whole (before ++ cs) after := by
  rintro ⟨last, next⟩
  rw [List.getLast?_append] at last
  cases inner : cs.getLast? with
  | none =>
    obtain rfl := List.getLast?_eq_none_iff.mp inner
    exact whole ⟨by simpa using last, next⟩
  | some c =>
    rw [inner, Option.some_or] at last
    obtain rfl := Option.some.inj last
    exact absurd (unbroken _ (List.mem_of_getLast? inner)) (by decide)

/-- Behind a whole break a cut is good. -/
theorem IsBreak.whole {brk after : List Char} (h : IsBreak brk after) (before : List Char) :
    Whole (before ++ brk) after := by
  rintro ⟨last, next⟩
  cases h with
  | pair => simp at last
  | single h alone => exact alone ⟨by simpa using last, next⟩

theorem Whole.prepend {ys zs : List Char} (h : Whole ys zs) (xs : List Char) (some_text : ys ≠ []) :
    Whole (xs ++ ys) zs := by
  rintro ⟨last, next⟩
  refine h ⟨?_, next⟩
  rw [List.getLast?_append] at last
  cases inner : ys.getLast? with
  | none => exact absurd (List.getLast?_eq_none_iff.mp inner) some_text
  | some c => rwa [inner, Option.some_or] at last

/-- What stands far behind a break does not matter to it. -/
theorem IsBreak.of_append {brk xs ys : List Char} (h : IsBreak brk (xs ++ ys)) :
    IsBreak brk xs := by
  cases h with
  | pair => exact .pair xs
  | single h alone =>
    refine .single h ?_
    rintro ⟨rfl, next⟩
    exact alone ⟨rfl, by rw [List.head?_append, next]; rfl⟩

/-- Induction over a text by its lines: a character inside a line, or a whole break. -/
theorem byBreaks {motive : List Char → Prop} (nil : motive [])
    (char : ∀ c cs, isLineBreak c = false → motive cs → motive (c :: cs))
    (brk : ∀ b cs, IsBreak b cs → motive cs → motive (b ++ cs)) (cs : List Char) : motive cs := by
  fun_induction physicalLines cs with
  | case1 => exact nil
  | case2 cs ih => exact brk ['\r', '\n'] cs (.pair cs) ih
  | case3 c cs pair h ih =>
    refine brk [c] cs (.single h ?_) ih
    rintro ⟨rfl, next⟩
    cases cs with
    | nil => simp at next
    | cons d ds => exact pair ds rfl (by simpa using next)
  | case4 c cs _ h _ ih => exact char c cs (by simpa using h) ih
  | case5 c cs _ h _ _ _ ih => exact char c cs (by simpa using h) ih

/-! ## 2. The starts of lines -/

section
variable (here : Nat) {brk cs after : List Char}

theorem startsBehind_char {c : Char} (h : isLineBreak c = false) :
    startsBehind here (c :: cs) = startsBehind (here + c.utf8Size) cs := by
  rw [startsBehind]
  · rw [if_neg (by simp [h])]
  · rintro ds rfl
    exact absurd h (by decide)

theorem startsBehind_break (h : IsBreak brk after) :
    startsBehind here (brk ++ after)
      = (here + byteLength brk) :: startsBehind (here + byteLength brk) after := by
  cases h with
  | pair => rfl
  | single h alone =>
    rw [List.singleton_append, startsBehind, if_pos h]
    · rfl
    · rintro ds rfl
      intro rest
      exact alone ⟨rfl, by rw [rest]; rfl⟩

/-- Inside a line no line starts. -/
theorem startsBehind_unbroken (h : Unbroken cs) (after : List Char) :
    startsBehind here (cs ++ after) = startsBehind (here + byteLength cs) after := by
  induction cs generalizing here with
  | nil => rfl
  | cons c cs ih =>
    rw [List.cons_append, startsBehind_char here (h c List.mem_cons_self),
      ih _ fun d hd => h d (List.mem_cons_of_mem c hd), byteLength_cons, Nat.add_assoc]

theorem startsBehind_append (whole : Whole cs after) :
    startsBehind here (cs ++ after)
      = startsBehind here cs ++ startsBehind (here + byteLength cs) after := by
  induction cs using byBreaks generalizing here with
  | nil => rfl
  | char c cs h ih =>
    rw [List.cons_append, startsBehind_char here h, startsBehind_char here h,
      ih _ whole.tail, byteLength_cons, Nat.add_assoc]
  | brk b cs h ih =>
    rw [List.append_assoc, startsBehind_break here (h.append whole), startsBehind_break here h,
      ih _ whole.behind, byteLength_append, Nat.add_assoc, List.cons_append]

/-- A line starts behind some of the text, and in that many lines start as it has lines in front
of it. -/
theorem exists_split_of_start {k s : Nat} (h : (startsBehind here cs)[k]? = some s) :
    ∃ front back, cs = front ++ back ∧ Whole front back ∧ s = here + byteLength front
      ∧ (startsBehind here front).length = k + 1 := by
  induction cs using byBreaks generalizing here k with
  | nil => exact absurd h (by simp [startsBehind])
  | char c cs inside ih =>
    rw [startsBehind_char here inside] at h
    obtain ⟨front, back, rfl, whole, start, count⟩ := ih _ h
    have some_text : front ≠ [] := by rintro rfl; exact absurd count (by simp [startsBehind])
    refine ⟨c :: front, back, rfl, whole.prepend [c] some_text, ?_, ?_⟩
    · rw [start, byteLength_cons, Nat.add_assoc]
    · rw [startsBehind_char here inside, count]
  | brk b cs brk ih =>
    rw [startsBehind_break here brk] at h
    cases k with
    | zero =>
      refine ⟨b, cs, rfl, brk.whole [], (Option.some.inj h).symm, ?_⟩
      have alone := startsBehind_break here brk.alone
      rw [List.append_nil] at alone
      rw [alone]
      rfl
    | succ k =>
      obtain ⟨front, back, rfl, whole, start, count⟩ := ih _ h
      have some_text : front ≠ [] := by rintro rfl; exact absurd count (by simp [startsBehind])
      refine ⟨b ++ front, back, (List.append_assoc ..).symm, whole.prepend b some_text, ?_, ?_⟩
      · rw [start, byteLength_append, Nat.add_assoc]
      · rw [startsBehind_break here brk.of_append, List.length_cons, count]

/-- Up to the next break a line goes on. -/
theorem nextBreak_cases (cs : List Char) :
    ∃ inner brk rest, cs = inner ++ brk ++ rest ∧ Unbroken inner
      ∧ (∀ c ∈ brk, isLineBreak c = true)
      ∧ (startsBehind here cs).head?.getD (here + byteLength cs)
          = here + byteLength (inner ++ brk) := by
  induction cs using byBreaks generalizing here with
  | nil => exact ⟨[], [], [], rfl, by simp [Unbroken], by simp, rfl⟩
  | char c cs inside ih =>
    obtain ⟨inner, brk, rest, rfl, unbroken, breaks, next⟩ := ih (here + c.utf8Size)
    refine ⟨c :: inner, brk, rest, rfl, List.forall_mem_cons.mpr ⟨inside, unbroken⟩, breaks, ?_⟩
    rw [startsBehind_char here inside, byteLength_cons, ← Nat.add_assoc, next, List.cons_append,
      byteLength_cons, Nat.add_assoc]
  | brk b cs brk ih =>
    refine ⟨[], b, cs, rfl, by simp [Unbroken], brk.isLineBreak, ?_⟩
    rw [startsBehind_break here brk]
    rfl

end

/-! ## 3. Reading on from a location -/

namespace Location

/-- Where a text ends that starts here. -/
def through (l : Location) : List Char → Location
  | [] => l
  | '\r' :: '\n' :: cs => through (l.after ['\r', '\n']).nextLine cs
  | c :: cs =>
    if isLineBreak c then through (l.after [c]).nextLine cs else through (l.after [c]) cs

variable (l : Location) {brk cs after : List Char}

theorem through_char {c : Char} (h : isLineBreak c = false) :
    l.through (c :: cs) = (l.after [c]).through cs := by
  rw [through]
  · rw [if_neg (by simp [h])]
  · rintro ds rfl
    exact absurd h (by decide)

theorem through_break (h : IsBreak brk after) :
    l.through (brk ++ after) = ((l.after brk).nextLine).through after := by
  cases h with
  | pair => rfl
  | single h alone =>
    rw [List.singleton_append, through, if_pos h]
    rintro ds rfl
    intro rest
    exact alone ⟨rfl, by rw [rest]; rfl⟩

theorem through_append (whole : Whole cs after) :
    l.through (cs ++ after) = (l.through cs).through after := by
  induction cs using byBreaks generalizing l with
  | nil => rfl
  | char c cs h ih =>
    rw [List.cons_append, through_char l h, through_char l h, ih _ whole.tail]
  | brk b cs h ih =>
    rw [List.append_assoc, through_break l (h.append whole), through_break l h, ih _ whole.behind]

/-- Inside a line only the column grows. -/
theorem through_unbroken (h : Unbroken cs) : l.through cs = l.after cs := by
  induction cs generalizing l with
  | nil => rfl
  | cons c cs ih =>
    rw [through_char l (h c List.mem_cons_self),
      ih _ fun d hd => h d (List.mem_cons_of_mem c hd), ← after_append]
    rfl

theorem offset_through (cs : List Char) : (l.through cs).offset = l.offset + byteLength cs := by
  induction cs using byBreaks generalizing l with
  | nil => rfl
  | char c cs h ih => rw [through_char l h, ih, byteLength_cons, ← Nat.add_assoc]; rfl
  | brk b cs h ih => rw [through_break l h, ih, byteLength_append, ← Nat.add_assoc]; rfl

theorem units_through (cs : List Char) : (l.through cs).units = l.units + unitLength cs := by
  induction cs using byBreaks generalizing l with
  | nil => rfl
  | char c cs h ih => rw [through_char l h, ih, unitLength_cons, ← Nat.add_assoc]; rfl
  | brk b cs h ih => rw [through_break l h, ih, unitLength_append, ← Nat.add_assoc]; rfl

/-- Lines are counted by their starts. -/
theorem line_through (cs : List Char) :
    (l.through cs).line = l.line + (startsBehind l.offset cs).length := by
  induction cs using byBreaks generalizing l with
  | nil => rfl
  | char c cs h ih =>
    rw [through_char l h, ih, startsBehind_char l.offset h]
    rfl
  | brk b cs h ih =>
    rw [through_break l h, ih, startsBehind_break l.offset h, List.length_cons]
    show l.line + 1 + _ = l.line + (_ + 1)
    rw [Nat.add_assoc, Nat.add_comm 1]
    rfl

/-- What is read since the last break: everything, or what stands behind the start of a line. -/
theorem lastLine_cases (cs : List Char) :
    (Unbroken cs ∧ startsBehind l.offset cs = [] ∧ (l.through cs).column = l.column + unitLength cs)
    ∨ ∃ head tail init, cs = head ++ tail ∧ Unbroken tail
      ∧ startsBehind l.offset cs = init ++ [l.offset + byteLength head]
      ∧ (l.through cs).column = unitLength tail := by
  induction cs using byBreaks generalizing l with
  | nil => exact .inl ⟨by simp [Unbroken], rfl, rfl⟩
  | char c cs h ih =>
    rw [through_char l h, startsBehind_char l.offset h]
    rcases ih (l.after [c]) with ⟨unbroken, none, column⟩ | ⟨head, tail, init, rfl, later⟩
    · refine .inl ⟨List.forall_mem_cons.mpr ⟨h, unbroken⟩, none, ?_⟩
      rw [column, unitLength_cons, ← Nat.add_assoc]
      rfl
    · obtain ⟨unbroken, starts, column⟩ := later
      refine .inr ⟨c :: head, tail, init, rfl, unbroken, ?_, column⟩
      rw [byteLength_cons, ← Nat.add_assoc]
      exact starts
  | brk b cs h ih =>
    rw [through_break l h, startsBehind_break l.offset h]
    rcases ih (l.after b).nextLine with ⟨unbroken, none, column⟩ | ⟨head, tail, init, rfl, later⟩
    · refine .inr ⟨b, cs, [], rfl, unbroken, ?_, ?_⟩
      · exact congrArg _ none
      · rw [column]
        exact Nat.zero_add _
    · obtain ⟨unbroken, starts, column⟩ := later
      refine .inr ⟨b ++ head, tail, (l.offset + byteLength b) :: init,
        (List.append_assoc ..).symm, unbroken, ?_, column⟩
      rw [byteLength_append, ← Nat.add_assoc]
      exact congrArg _ starts

end Location

/-! ## 4. The table of lines -/

theorem byteLength_pos {cs : List Char} (h : cs ≠ []) : 0 < byteLength cs := by
  cases cs with
  | nil => exact absurd rfl h
  | cons c cs =>
    have := c.utf8Size_pos
    rw [byteLength_cons]
    omega

theorem unitLength_eq_zero {cs : List Char} : unitLength cs = 0 ↔ cs = [] := by
  cases cs with
  | nil => exact ⟨fun _ => rfl, fun _ => rfl⟩
  | cons c cs =>
    have := unitWidth_pos c
    rw [unitLength_cons]
    exact ⟨fun zero => by omega, fun nothing => absurd nothing (by simp)⟩

/-- The starts of lines in a part of a text lie in it. -/
theorem mem_startsBehind {here s : Nat} {cs : List Char} (h : s ∈ startsBehind here cs) :
    here < s ∧ s ≤ here + byteLength cs := by
  obtain ⟨k, start⟩ := List.mem_iff_getElem?.mp h
  obtain ⟨front, back, rfl, -, rfl, count⟩ := exists_split_of_start here start
  have some_text : front ≠ [] := by rintro rfl; exact absurd count (by simp [startsBehind])
  have := byteLength_pos some_text
  rw [byteLength_append]
  omega

namespace LineStarts

section
variable {before after : List Char}

theorem starts_ofText (whole : Whole before after) :
    (ofText (before ++ after)).starts
      = (0 :: startsBehind 0 before) ++ startsBehind (byteLength before) after := by
  rw [ofText, startsBehind_append 0 whole, Nat.zero_add]
  rfl

/-- A byte falls on the line that is counted by the starts of lines up to it. -/
theorem lineOf_byteLength (whole : Whole before after) :
    (ofText (before ++ after)).lineOf (byteLength before) = (startsBehind 0 before).length := by
  have passed : ∀ s ∈ 0 :: startsBehind 0 before, decide (s ≤ byteLength before) = true := by
    refine List.forall_mem_cons.mpr ⟨by simp, fun s hs => ?_⟩
    have := (mem_startsBehind hs).2
    simpa using this
  have ahead : (startsBehind (byteLength before) after).takeWhile (· ≤ byteLength before) = [] := by
    cases starts : startsBehind (byteLength before) after with
    | nil => rfl
    | cons s rest =>
      have := (mem_startsBehind (starts ▸ List.mem_cons_self)).1
      exact List.takeWhile_cons_of_neg (by simpa using this)
  rw [lineOf, starts_ofText whole, List.takeWhile_append_of_pos passed, ahead, List.append_nil]
  rfl

/-- The line of the table that a cut stands on: it starts behind the last break in front of the cut,
and stops behind the next one. -/
theorem line?_of_cut (whole : Whole before after) :
    ∃ head tail inner brk rest, before = head ++ tail ∧ after = inner ++ brk ++ rest
      ∧ Unbroken tail ∧ Unbroken inner ∧ (∀ c ∈ brk, isLineBreak c = true)
      ∧ (Location.origin.through before).column = unitLength tail
      ∧ (ofText (before ++ after)).line? (startsBehind 0 before).length
          = some ⟨byteLength head, byteLength head + byteLength (tail ++ inner ++ brk)⟩ := by
  obtain ⟨head, tail, init, rfl, unbroken, starts, column⟩ :
      ∃ head tail init, before = head ++ tail ∧ Unbroken tail
        ∧ 0 :: startsBehind 0 before = init ++ [byteLength head]
        ∧ (Location.origin.through before).column = unitLength tail := by
    rcases Location.lastLine_cases .origin before with
      ⟨unbroken, none, column⟩ | ⟨head, tail, init, split, unbroken, starts, column⟩
    · exact ⟨[], before, [], rfl, unbroken, congrArg _ none, column.trans (Nat.zero_add _)⟩
    · refine ⟨head, tail, 0 :: init, split, unbroken, ?_, column⟩
      have starts : startsBehind 0 before = init ++ [0 + byteLength head] := starts
      rw [starts, Nat.zero_add]
      rfl
  obtain ⟨inner, brk, rest, rfl, inside, breaks, next⟩ :=
    nextBreak_cases (byteLength (head ++ tail)) after
  refine ⟨head, tail, inner, brk, rest, rfl, rfl, unbroken, inside, breaks, column, ?_⟩
  have count : init.length = (startsBehind 0 (head ++ tail)).length := by
    simpa using (congrArg List.length starts).symm
  have start : (ofText (head ++ tail ++ (inner ++ brk ++ rest))).starts[init.length]?
      = some (byteLength head) := by
    rw [starts_ofText whole, starts, List.append_assoc, List.getElem?_append_right (Nat.le_refl _),
      Nat.sub_self]
    rfl
  have stop : ((ofText (head ++ tail ++ (inner ++ brk ++ rest))).starts[init.length + 1]?).getD
      (byteLength (head ++ tail ++ (inner ++ brk ++ rest)))
      = byteLength head + byteLength (tail ++ inner ++ brk) := by
    have behind : (init ++ [byteLength head]).length ≤ init.length + 1 := by simp
    have here : init.length + 1 - (init ++ [byteLength head]).length = 0 := by simp
    rw [starts_ofText whole, starts, List.getElem?_append_right behind, here,
      ← List.head?_eq_getElem?, byteLength_append (head ++ tail), next]
    simp only [byteLength_append]
    omega
  rw [← count, line?, start]
  show some (Span.mk _ _) = _
  rw [← stop]
  rfl

end

end LineStarts

/-- A line without its break is what stands in front of the break. -/
theorem dropBreak_append {inner brk : List Char} (unbroken : Unbroken inner)
    (breaks : ∀ c ∈ brk, isLineBreak c = true) : dropBreak (inner ++ brk) = inner := by
  have kept : inner.reverse.dropWhile isLineBreak = inner.reverse := by
    cases last : inner.reverse with
    | nil => rfl
    | cons c cs =>
      have : isLineBreak c = false :=
        unbroken c (List.mem_reverse.mp (last ▸ List.mem_cons_self))
      exact List.dropWhile_cons_of_neg (by simp [this])
  rw [dropBreak, List.reverse_append, List.dropWhile_append_of_pos, kept, List.reverse_reverse]
  exact fun c hc => breaks c (List.mem_reverse.mp hc)

theorem bytesToColumn_unitLength (front back : List Char) :
    bytesToColumn (unitLength front) (front ++ back) = byteLength front := by
  induction front with
  | nil => cases back <;> rfl
  | cons c front ih =>
    have := unitWidth_pos c
    rw [List.cons_append, bytesToColumn, unitLength_cons, if_neg (by omega),
      Nat.add_sub_cancel_left, ih, byteLength_cons]

/-! ## 5. The two ways agree -/

section
variable {before after : List Char}

/-- The table of lines gives a cut the position that reading up to there gives it. -/
theorem position?_byteLength (whole : Whole before after) :
    position? (before ++ after) (.ofText (before ++ after)) (byteLength before)
      = some (Location.origin.through before).position := by
  obtain ⟨head, tail, inner, brk, rest, rfl, rfl, -, -, -, column, line⟩ :=
    LineStarts.line?_of_cut whole
  have inside : min (byteLength (head ++ tail)) (byteLength (head ++ tail ++ (inner ++ brk ++ rest)))
      = byteLength (head ++ tail) := by
    rw [byteLength_append (head ++ tail)]
    omega
  have boundary : isBoundary (byteLength (head ++ tail)) (head ++ tail ++ (inner ++ brk ++ rest))
      = true := isBoundary_iff.mpr ⟨_, _, rfl, rfl⟩
  have number : (Location.origin.through (head ++ tail)).line
      = (startsBehind 0 (head ++ tail)).length :=
    (Location.line_through .origin (head ++ tail)).trans (Nat.zero_add _)
  have read : sliceBytes (byteLength head) (byteLength (head ++ tail))
      (head ++ tail ++ (inner ++ brk ++ rest)) = tail := by
    rw [byteLength_append, sliceBytes_append]
  rw [position?]
  dsimp only
  rw [inside, if_pos boundary, LineStarts.lineOf_byteLength whole, line, Option.map_some,
    Option.getD_some, read, Location.position, column, number]

/-- From the position of a cut the table of lines leads back to its byte. -/
theorem offsetIn_through (whole : Whole before after) :
    offsetIn (before ++ after) (.ofText (before ++ after)) (Location.origin.through before).position
      = byteLength before := by
  obtain ⟨head, tail, inner, brk, rest, rfl, rfl, unbroken, inside, breaks, column, line⟩ :=
    LineStarts.line?_of_cut whole
  have number : (Location.origin.through (head ++ tail)).line
      = (startsBehind 0 (head ++ tail)).length :=
    (Location.line_through .origin (head ++ tail)).trans (Nat.zero_add _)
  have parts : head ++ tail ++ (inner ++ brk ++ rest) = head ++ (tail ++ inner ++ brk) ++ rest := by
    simp only [List.append_assoc]
  rw [offsetIn, Location.position, number, line, column]
  dsimp only
  rw [parts, sliceBytes_append, dropBreak_append (unbroken_append.mpr ⟨unbroken, inside⟩) breaks,
    bytesToColumn_unitLength, byteLength_append]

end

end OffsideMarkup
