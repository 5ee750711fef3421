/-
OffsideMarkup.Proofs.Substitution — a message is its template with all arguments put in at once.

What a template is made of has nothing to do with arguments. It has placeholders, which are numbers
in braces, and characters that stand for themselves. There is no brace in a number, so placeholders
never overlap (`Placeholder.written_append_cases`), and a template has just one list of pieces in
which each of its placeholders is a piece (`Pieces.unique`). To fill the template in is to replace
the pieces one by one, so nothing that is put in is ever taken for a part of the template
(`Pieces.fill_eq`).

`fill` takes characters off a list. A template in memory is bytes: `fillLoop` looks for a brace, cuts
at the byte where it stands, and goes on with the rest, as long as there are more. It is the least
fixed point of one round of this, so it has no result if it does not end or if a cut is refused.
`fillLoop_eq` says that it always has the result of `fill`: each round is one piece with the
characters in front of it, and every cut is next to a brace.
-/
import Mathlib.Control.LawfulFix
import Mathlib.Data.List.TakeWhile
import OffsideMarkup.Kind
import OffsideMarkup.Proofs.ByteCut
import OffsideMarkup.Proofs.MessageText
import OffsideMarkup.Proofs.WrittenNumber

namespace OffsideMarkup

open OmegaCompletePartialOrder

/-! ## 1. Placeholders -/

/-- A number in braces. -/
@[ext]
structure Placeholder where
  inner : List Char
  index : Nat
  number : WritesNumber inner index
  small : index < longBound

theorem bne_of_notMem {c : Char} {cs : List Char} (h : c ∉ cs) : ∀ d ∈ cs, (d != c) = true :=
  fun _ mem => bne_iff_ne.mpr fun same => h (same ▸ mem)

theorem uptoBrace?_append {inner : List Char} (h : '}' ∉ inner) (rest : List Char) :
    uptoBrace? (inner ++ '}' :: rest) = some (inner, rest) := by
  have other := bne_of_notMem h
  simp [uptoBrace?, List.dropWhile_append_of_pos other, List.takeWhile_append_of_pos other]

theorem uptoBrace?_eq_none {cs : List Char} (h : '}' ∉ cs) : uptoBrace? cs = none := by
  rw [uptoBrace?, List.dropWhile_eq_nil_iff.mpr (bne_of_notMem h)]

namespace Placeholder

variable {p q : Placeholder} {before after rest xs ys : List Char}

/-- The text of a placeholder. -/
def written (p : Placeholder) : List Char := '{' :: p.inner ++ ['}']

/-- The argument with its index takes the place of a placeholder. Without one it stays. -/
def filled (args : List (List Char)) (p : Placeholder) : List Char :=
  (args[p.index]?).getD p.written

theorem written_append (p : Placeholder) (rest : List Char) :
    p.written ++ rest = '{' :: (p.inner ++ '}' :: rest) := by simp [written]

theorem opening_notMem (p : Placeholder) : '{' ∉ p.inner :=
  fun mem => absurd (p.number.isDigit_or_plus '{' mem) (by decide)

theorem closing_notMem (p : Placeholder) : '}' ∉ p.inner :=
  fun mem => absurd (p.number.isDigit_or_plus '}' mem) (by decide)

/-- Behind its opening brace a placeholder is found. -/
theorem placeholder?_inner (p : Placeholder) (rest : List Char) :
    placeholder? (p.inner ++ '}' :: rest) = some (p.index, p.inner, rest) := by
  have read : readNumber? longBound p.inner = some p.index :=
    readNumber?_eq_some_iff.mpr ⟨p.number, p.small⟩
  rw [placeholder?, uptoBrace?_append p.closing_notMem]
  simp [read]

theorem exists_of_placeholder? {cs inner : List Char} {n : Nat}
    (h : placeholder? cs = some (n, inner, rest)) :
    ∃ p : Placeholder, p.index = n ∧ p.inner = inner ∧ cs = p.inner ++ '}' :: rest := by
  by_cases mem : '}' ∈ cs
  · obtain ⟨front, back, rfl, first⟩ := List.eq_append_cons_of_mem mem
    rw [placeholder?, uptoBrace?_append first] at h
    obtain ⟨m, read, same⟩ := Option.map_eq_some_iff.mp h
    obtain ⟨rfl, rfl, rfl⟩ := by simpa using same
    obtain ⟨number, small⟩ := readNumber?_eq_some_iff.mp read
    exact ⟨⟨front, m, number, small⟩, rfl, rfl, rfl⟩
  · rw [placeholder?, uptoBrace?_eq_none mem] at h
    exact absurd h (by simp)

/-- A text starts with at most one placeholder. -/
theorem written_append_inj (h : p.written ++ xs = q.written ++ ys) : p = q ∧ xs = ys := by
  rw [written_append, written_append] at h
  have read := congrArg placeholder? (List.cons.inj h).2
  rw [placeholder?_inner, placeholder?_inner] at read
  obtain ⟨index, inner, rest⟩ := by simpa using read
  exact ⟨Placeholder.ext inner index, rest⟩

/-- Placeholders do not overlap: no character of one but the first is an opening brace. -/
theorem written_append_cases (h : p.written ++ rest = before ++ (q.written ++ after)) :
    before = [] ∧ p = q ∧ rest = after
      ∨ ∃ more, before = p.written ++ more ∧ rest = more ++ (q.written ++ after) := by
  rcases List.append_eq_append_iff.mp h with ⟨more, split, behind⟩ | ⟨more, split, behind⟩
  · exact .inr ⟨more, split, behind⟩
  · cases before with
    | nil => exact .inl ⟨rfl, written_append_inj h⟩
    | cons c before =>
      cases more with
      | nil => exact .inr ⟨[], by simpa using split.symm, by simpa using behind.symm⟩
      | cons d more =>
        -- The second one would open inside the first, behind its opening brace.
        rw [written_append] at behind
        obtain ⟨rfl, -⟩ := List.cons.inj behind
        have inside : p.inner ++ ['}'] = before ++ '{' :: more := (List.cons.inj split).2
        have opening : '{' ∈ p.inner ++ ['}'] := by simp [inside]
        exact absurd opening (by simp [p.opening_notMem])

end Placeholder

theorem placeholder?_eq_none_iff {cs : List Char} :
    placeholder? cs = none ↔ ∀ (p : Placeholder) after, '{' :: cs ≠ p.written ++ after := by
  constructor
  · intro none p after split
    rw [p.written_append] at split
    rw [(List.cons.inj split).2, p.placeholder?_inner] at none
    exact absurd none (by simp)
  · intro alone
    rw [Option.eq_none_iff_forall_ne_some]
    rintro ⟨n, inner, rest⟩ found
    obtain ⟨p, -, -, rfl⟩ := Placeholder.exists_of_placeholder? found
    exact alone p rest (p.written_append rest).symm

/-! ## 2. Pieces -/

/-- A part of a template: a character that stands for itself, or a placeholder. -/
inductive Piece
  | char (c : Char)
  | placeholder (p : Placeholder)

namespace Piece

/-- The text of a piece. -/
def written : Piece → List Char
  | .char c => [c]
  | .placeholder p => p.written

/-- What becomes of a piece. -/
def filled (args : List (List Char)) : Piece → List Char
  | .char c => [c]
  | .placeholder p => p.filled args

theorem written_ne_nil (piece : Piece) : piece.written ≠ [] := by
  cases piece <;> simp [written, Placeholder.written]

end Piece

/-- The pieces of a template, from left to right. Together they are the template, and wherever a
placeholder is written in the template, it is the piece at that place. -/
structure Pieces (template : List Char) (pieces : List Piece) : Prop where
  written : pieces.flatMap Piece.written = template
  found : ∀ before (p : Placeholder) after, template = before ++ (p.written ++ after) →
    ∃ front back, pieces = front ++ .placeholder p :: back
      ∧ front.flatMap Piece.written = before

namespace Pieces

variable {p : Placeholder} {c : Char} {cs rest template : List Char} {piece : Piece}
  {pieces others : List Piece}

theorem nil : Pieces [] [] where
  written := rfl
  found before p after h := absurd h (by simp [Placeholder.written])

theorem char (alone : ∀ (p : Placeholder) after, c :: cs ≠ p.written ++ after)
    (h : Pieces cs pieces) : Pieces (c :: cs) (.char c :: pieces) where
  written := by rw [List.flatMap_cons, h.written]; rfl
  found before p after split := by
    cases before with
    | nil => exact absurd split (alone p after)
    | cons d before =>
      rw [List.cons_append, List.cons.injEq] at split
      obtain ⟨rfl, split⟩ := split
      obtain ⟨front, back, rfl, rfl⟩ := h.found before p after split
      exact ⟨.char c :: front, back, rfl, rfl⟩

theorem placeholder (p : Placeholder) (h : Pieces rest pieces) :
    Pieces (p.written ++ rest) (.placeholder p :: pieces) where
  written := by rw [List.flatMap_cons, h.written]; rfl
  found before q after split := by
    rcases Placeholder.written_append_cases split with ⟨rfl, rfl, -⟩ | ⟨more, rfl, behind⟩
    · exact ⟨[], pieces, rfl, rfl⟩
    · obtain ⟨front, back, rfl, rfl⟩ := h.found more q after behind
      exact ⟨.placeholder p :: front, back, rfl, rfl⟩

/-- Every template has pieces. -/
theorem exists_pieces (template : List Char) : ∃ pieces, Pieces template pieces := by
  -- The cases are those of `fill`, which look at the template and never at an argument.
  induction template using fill.induct with
  | case1 => exact ⟨[], nil⟩
  | case2 cs n inner rest found ih =>
    obtain ⟨p, -, -, rfl⟩ := Placeholder.exists_of_placeholder? found
    obtain ⟨pieces, h⟩ := ih
    exact ⟨_, p.written_append rest ▸ h.placeholder p⟩
  | case3 cs none ih =>
    obtain ⟨pieces, h⟩ := ih
    exact ⟨_, h.char (placeholder?_eq_none_iff.mp none)⟩
  | case4 c cs other ih =>
    obtain ⟨pieces, h⟩ := ih
    refine ⟨_, h.char fun p after split => other ?_⟩
    rw [p.written_append] at split
    exact (List.cons.inj split).1

/-- Behind the first piece, the others are those of what is left. -/
theorem tail (h : Pieces template (piece :: pieces)) :
    ∃ rest, template = piece.written ++ rest ∧ Pieces rest pieces := by
  refine ⟨pieces.flatMap Piece.written, h.written.symm, rfl, fun before p after split => ?_⟩
  have whole : template = piece.written ++ before ++ (p.written ++ after) := by
    rw [← h.written, List.flatMap_cons, split, List.append_assoc]
  -- The place of a placeholder in the whole template is behind the first piece.
  obtain ⟨front, back, same, written⟩ := h.found _ p after whole
  cases front with
  | nil => exact absurd written.symm (by simp [piece.written_ne_nil])
  | cons first front =>
    obtain ⟨rfl, rfl⟩ := List.cons.inj same
    exact ⟨front, back, rfl, List.append_cancel_left written⟩

/-- A placeholder that the template starts with is the first piece. -/
theorem head_eq (h : Pieces (p.written ++ rest) (piece :: pieces)) : piece = .placeholder p := by
  obtain ⟨front, back, same, written⟩ := h.found [] p rest rfl
  cases front with
  | nil => exact (List.cons.inj same).1
  | cons first front => exact absurd written (by simp [first.written_ne_nil])

/-- Where a character is a piece by itself, no placeholder starts. -/
theorem alone (h : Pieces (c :: cs) (.char c :: pieces)) (p : Placeholder) (after : List Char) :
    c :: cs ≠ p.written ++ after :=
  fun split => absurd (split ▸ h).head_eq (by simp)

/-- There is only one way to take a template to pieces. -/
theorem unique (h : Pieces template pieces) (h' : Pieces template others) : others = pieces := by
  induction pieces generalizing template others with
  | nil =>
    cases others with
    | nil => rfl
    | cons other others =>
      exact absurd (h'.written.trans h.written.symm) (by simp [other.written_ne_nil])
  | cons piece pieces ih =>
    cases others with
    | nil => exact absurd (h.written.trans h'.written.symm) (by simp [piece.written_ne_nil])
    | cons other others =>
      obtain ⟨rest, rfl, tail⟩ := h.tail
      obtain ⟨rest', split, tail'⟩ := h'.tail
      -- If only one of them were a placeholder, the other list would leave it out.
      have first : other = piece := by
        cases piece with
        | placeholder p => exact h'.head_eq
        | char c =>
          cases other with
          | placeholder q => exact absurd (split ▸ h).head_eq (by simp)
          | char d => rw [(List.cons.inj split).1]
      subst first
      obtain rfl := List.append_cancel_left split
      rw [ih tail tail']

/-- A template is filled in by its pieces, whatever the arguments are. -/
theorem fill_eq (args : List (List Char)) (h : Pieces template pieces) :
    fill args template = pieces.flatMap (Piece.filled args) := by
  induction pieces generalizing template with
  | nil => rw [← h.written, List.flatMap_nil, fill, List.flatMap_nil]
  | cons piece pieces ih =>
    obtain ⟨rest, rfl, tail⟩ := h.tail
    rw [List.flatMap_cons, ← ih tail]
    cases piece with
    | placeholder p =>
      rw [Piece.written, p.written_append, fill_placeholder (p.placeholder?_inner rest)]
      rfl
    | char c =>
      by_cases brace : c = '{'
      · subst brace
        exact fill_brace (placeholder?_eq_none_iff.mpr h.alone)
      · exact fill_char brace rest

end Pieces

/-! ## 3. The loop over bytes -/

/-- The byte at which a character is first met. -/
def byteOf? (c : Char) : List Char → Option Nat
  | [] => none
  | d :: ds => if d = c then some 0 else (byteOf? c ds).map (d.utf8Size + ·)

/-- What stands behind an opening brace: an index and the byte of the brace that closes it, or
nothing of the kind. There is no answer at all if a cut is refused. -/
def closing? (after : List Char) : Option (Option (Nat × Nat)) :=
  match byteOf? '}' after with
  | none => some none
  | some close => do
    let inner ← slice? ⟨0, close⟩ after
    return (readNumber? longBound inner).map (·, close)

/-- What to write, and what is left of the template, given the byte of the first opening brace. The
bytes of a placeholder are counted from there, and those of what is left from behind the brace. -/
def fillTurn? (args : List (List Char)) (out template : List Char) (opening : Nat) :
    Option (List Char × List Char) := do
  let front ← slice? ⟨0, opening⟩ template
  let after ← slice? ⟨opening + 1, byteLength template⟩ template
  match ← closing? after with
  | none => return (out ++ front ++ ['{'], after)
  | some (index, close) =>
    let new ← args[index]? <|> slice? ⟨opening, opening + close + 2⟩ template
    let rest ← slice? ⟨close + 1, byteLength after⟩ after
    return (out ++ front ++ new, rest)

/-- One round of the loop, which goes on with what is left if there was a brace. -/
def fillRound (args : List (List Char)) (further : List Char → List Char → Part (List Char))
    (out template : List Char) : Part (List Char) :=
  match byteOf? '{' template with
  | none => pure (out ++ template)
  | some opening =>
    Part.ofOption (fillTurn? args out template opening) >>= fun next => further next.1 next.2

/-- Writes a template behind what is written already, with its placeholders filled in. -/
def fillLoop (args : List (List Char)) : List Char → List Char → Part (List Char) :=
  Fix.fix (fillRound args)

theorem continuous_fillRound (args : List (List Char)) : ωScottContinuous (fillRound args) := by
  refine ωScottContinuous.of_apply₂ fun out => ωScottContinuous.of_apply₂ fun template => ?_
  unfold fillRound
  split
  · exact ωScottContinuous.const
  · refine ContinuousHom.ωScottContinuous.bind ωScottContinuous.const ?_
    fun_prop

theorem fillLoop_fix (args : List (List Char)) : fillLoop args = fillRound args (fillLoop args) :=
  LawfulFix.fix_eq (continuous_fillRound args)

section

variable {c : Char} {cs front after : List Char} {args : List (List Char)}

theorem byteOf?_eq_none (h : c ∉ cs) : byteOf? c cs = none := by
  induction cs with
  | nil => rfl
  | cons d ds ih =>
    rw [List.mem_cons, not_or] at h
    rw [byteOf?, if_neg (Ne.symm h.1), ih h.2]
    rfl

theorem byteOf?_append (h : c ∉ front) (after : List Char) :
    byteOf? c (front ++ c :: after) = some (byteLength front) := by
  induction front with
  | nil => simp [byteOf?, byteLength_nil]
  | cons d ds ih =>
    rw [List.mem_cons, not_or] at h
    rw [List.cons_append, byteOf?, if_neg (Ne.symm h.1), ih h.2, byteLength_cons]
    rfl

/-- Behind a character of one byte, such as a brace, the text can be cut. -/
theorem slice?_behind (c : Char) (one : c.utf8Size = 1) (front after : List Char) :
    slice? ⟨byteLength front + 1, byteLength (front ++ c :: after)⟩ (front ++ c :: after)
      = some after := by
  have cut := slice?_back (front ++ [c]) after
  rwa [List.append_assoc, byteLength_append front [c], byteLength_cons, one] at cut

theorem closing?_eq (after : List Char) : closing? after
    = some ((placeholder? after).map fun found => (found.1, byteLength found.2.1)) := by
  by_cases mem : '}' ∈ after
  · obtain ⟨inner, rest, rfl, first⟩ := List.eq_append_cons_of_mem mem
    rw [closing?, byteOf?_append first, placeholder?, uptoBrace?_append first]
    simp [slice?_front, Function.comp_def]
  · rw [closing?, byteOf?_eq_none mem, placeholder?, uptoBrace?_eq_none mem]
    rfl

/-- A brace that opens no placeholder is written, and the turn after it starts behind it. -/
theorem fillTurn?_brace (h : placeholder? after = none) (out front : List Char) :
    fillTurn? args out (front ++ '{' :: after) (byteLength front)
      = some (out ++ front ++ ['{'], after) := by
  have behind := slice?_behind '{' rfl front after
  simp [fillTurn?, slice?_front, behind, closing?_eq, h]

/-- A placeholder is written as it is filled in, and the turn after it starts behind it. -/
theorem fillTurn?_placeholder (p : Placeholder) (out front rest : List Char) :
    fillTurn? args out (front ++ (p.written ++ rest)) (byteLength front)
      = some (out ++ front ++ p.filled args, rest) := by
  have bytes : byteLength p.written = byteLength p.inner + 2 := by
    rw [Placeholder.written, List.cons_append, byteLength_cons, byteLength_append, Nat.add_comm]
    rfl
  have whole := slice?_of_split front p.written rest
  have behind := slice?_behind '{' rfl front (p.inner ++ '}' :: rest)
  have left := slice?_behind '}' rfl p.inner rest
  rw [bytes, ← Nat.add_assoc, List.append_assoc] at whole
  rw [p.written_append] at whole ⊢
  cases arg : args[p.index]? <;>
    simp [fillTurn?, slice?_front, behind, closing?_eq, p.placeholder?_inner, whole, left, arg,
      Placeholder.filled]

/-- A turn writes what is in front of the brace and what the brace stands for, and comes closer to
the end of the template. -/
theorem exists_fillTurn? (args : List (List Char)) (out front after : List Char) :
    ∃ new rest, fillTurn? args out (front ++ '{' :: after) (byteLength front)
        = some (out ++ front ++ new, rest)
      ∧ rest.length ≤ after.length ∧ fill args ('{' :: after) = new ++ fill args rest := by
  rcases read : placeholder? after with _ | ⟨n, inner, rest⟩
  · exact ⟨['{'], after, fillTurn?_brace read out front, Nat.le_refl _, fill_brace read⟩
  · have shorter := length_placeholder?_lt read
    obtain ⟨p, rfl, rfl, rfl⟩ := Placeholder.exists_of_placeholder? read
    refine ⟨p.filled args, rest, ?_, Nat.le_of_lt shorter, fill_placeholder read⟩
    rw [← p.written_append, fillTurn?_placeholder]

/-- The loop ends, with the filled-in template behind what was written before. -/
theorem fillLoop_eq (args : List (List Char)) (out template : List Char) :
    fillLoop args out template = Part.some (out ++ fill args template) := by
  -- What is written before the round is any text: each round adds to it.
  induction length : template.length using Nat.strong_induction_on generalizing out template with
  | _ n ih =>
    subst length
    rw [fillLoop_fix, fillRound]
    by_cases mem : '{' ∈ template
    · obtain ⟨front, after, rfl, first⟩ := List.eq_append_cons_of_mem mem
      obtain ⟨new, rest, turn, shorter, filled⟩ := exists_fillTurn? args out front after
      have less : rest.length < (front ++ '{' :: after).length := by
        rw [List.length_append, List.length_cons]
        omega
      rw [byteOf?_append first, fill_plain first, filled]
      dsimp only
      rw [turn]
      refine (Part.bind_some _ _).trans ((ih _ less _ rest rfl).trans ?_)
      simp only [List.append_assoc]
    · rw [byteOf?_eq_none mem, fill_of_notMem mem]
      rfl

end

/-! ## 4. Messages -/

/-- A message with its arguments, as the loop writes it. -/
def Message.formatLoop (m : Message) (args : List String) : Part String :=
  (fillLoop (args.map String.toList) [] m.template.toList).map String.ofList

/-- Formatting is one simultaneous substitution. A template is made of one list of pieces and no
other. For all arguments the loop ends, no cut is refused, and what is written is the pieces in
their order: for a placeholder its argument if there is one, and anything else as it is in the
template. So messages of the catalogue are written, and the name of a token comes out as it is,
whatever braces are in it. -/
theorem simultaneous_substitution :
    (∀ template : List Char, ∃ pieces, (∀ others, Pieces template others ↔ others = pieces)
      ∧ ∀ args : List (List Char),
        fillLoop args [] template = Part.some (pieces.flatMap (Piece.filled args))
          ∧ fill args template = pieces.flatMap (Piece.filled args))
      ∧ (∀ (m : Message) (args : List String), m.formatLoop args = Part.some (m.format args))
      ∧ ∀ k : Kind,
        Message.format .tokenExpected [k.display] = "Token " ++ k.display ++ " expected."
          ∧ Message.format .unexpectedToken [k.display] = "Unexpected token " ++ k.display := by
  refine ⟨fun template => ?_, fun m args => ?_, fun k =>
    ⟨Message.format_tokenExpected _, Message.format_unexpectedToken _⟩⟩
  · obtain ⟨pieces, h⟩ := Pieces.exists_pieces template
    refine ⟨pieces, fun others => ⟨h.unique, fun same => same ▸ h⟩, fun args => ?_⟩
    exact ⟨by rw [fillLoop_eq, List.nil_append, h.fill_eq], h.fill_eq args⟩
  · rw [Message.formatLoop, fillLoop_eq, List.nil_append, Part.map_some, Message.format]

/-- A brace that another one follows opens nothing, an argument that looks like a placeholder is no
placeholder, and an index may be too large. -/
example : fill [['a'], ['{', '0', '}']] "\x7b\x7b0\x7d\x7b1\x7d\x7b2\x7d\x7b".toList
    = "\x7ba\x7b0\x7d\x7b2\x7d\x7b".toList := by cbv

end OffsideMarkup
