/-
OffsideMarkup.Proofs.PhysicalLine — a text as its lines.

`physicalLines` cuts a text behind every line break and nowhere else. It knows nothing of tokens, so
what is said about the lines of a text can be said in terms of characters: how far a line is
indented, whether it is blank, with which character its content starts.

* `flatten_physicalLines` — the lines are the text.
* `RestOfLine.physicalLines` — a stretch without breaks and a whole break behind it are one line.

A carriage return counts as a whole break only if no line feed stands behind it (`IsBreak`). So what
a line is depends on the text behind it, but on its first character only: `RestOfLine after cs` says
that `cs` goes up to the end of a line, if `after` comes behind it.
-/
import OffsideMarkup.Text.Character

namespace OffsideMarkup

/-! ## 1. Lines of characters -/

/-- The lines of a text, each with its break. Behind a break at the end of the text there is no
line. -/
def physicalLines : List Char → List (List Char)
  | [] => []
  | '\r' :: '\n' :: cs => ['\r', '\n'] :: physicalLines cs
  | c :: cs =>
    if isLineBreak c then [c] :: physicalLines cs
    else match physicalLines cs with
      | [] => [[c]]
      | l :: ls => (c :: l) :: ls

/-- No character ends a line. -/
def Unbroken (cs : List Char) : Prop := ∀ c ∈ cs, isLineBreak c = false

/-- One line break, seen with the text behind it. -/
inductive IsBreak : List Char → List Char → Prop
  | pair (after : List Char) : IsBreak ['\r', '\n'] after
  | single {c : Char} {after : List Char} (h : isLineBreak c = true)
      (alone : ¬(c = '\r' ∧ after.head? = some '\n')) : IsBreak [c] after

theorem unbroken_append {xs ys : List Char} :
    Unbroken (xs ++ ys) ↔ Unbroken xs ∧ Unbroken ys := List.forall_mem_append

/-- Space inside a line does not end it. -/
theorem unbroken_of_inlineSpace {cs : List Char} (h : ∀ c ∈ cs, isInlineSpace c = true) :
    Unbroken cs := by
  intro c hc
  cases brk : isLineBreak c with
  | false => rfl
  | true =>
    have := h c hc
    rw [isInlineSpace_eq_false_of_isLineBreak brk] at this
    exact absurd this (by decide)

theorem inlineSpace_takeWhile (cs : List Char) :
    ∀ c ∈ cs.takeWhile isInlineSpace, isInlineSpace c = true :=
  List.all_eq_true.mp List.all_takeWhile

theorem IsBreak.isLineBreak {brk after : List Char} (h : IsBreak brk after) :
    ∀ c ∈ brk, isLineBreak c = true := by
  cases h with
  | pair => exact List.forall_mem_cons.mpr ⟨rfl, List.forall_mem_singleton.mpr rfl⟩
  | single h => simpa using h

/-- A break with nothing behind it is one all the more. -/
theorem IsBreak.alone {brk after : List Char} (h : IsBreak brk after) : IsBreak brk [] := by
  cases h with
  | pair => exact .pair []
  | single h => exact .single h (by simp)

theorem IsBreak.exists_cons {brk after : List Char} (h : IsBreak brk after) :
    ∃ c cs, brk = c :: cs ∧ OffsideMarkup.isLineBreak c = true := by
  cases h with
  | pair => exact ⟨_, _, rfl, rfl⟩
  | single h => exact ⟨_, _, rfl, h⟩

/-! ## 2. Cutting -/

/-- A character that ends no line goes in front of the first line. -/
theorem physicalLines_cons {c : Char} (h : isLineBreak c = false) (cs : List Char) :
    physicalLines (c :: cs) =
      match physicalLines cs with
      | [] => [[c]]
      | l :: ls => (c :: l) :: ls := by
  rw [physicalLines]
  · rw [if_neg (by simp [h])]
  · rintro ds rfl
    exact absurd h (by decide)

theorem physicalLines_break {brk after : List Char} (h : IsBreak brk after) :
    physicalLines (brk ++ after) = brk :: physicalLines after := by
  cases h with
  | pair => rfl
  | single h alone =>
    rw [List.singleton_append, physicalLines, if_pos h]
    rintro ds rfl
    intro rest
    exact alone ⟨rfl, by rw [rest]; rfl⟩

theorem flatten_physicalLines (text : List Char) : (physicalLines text).flatten = text := by
  fun_induction physicalLines text with
  | case1 => rfl
  | case2 cs ih => simp [ih]
  | case3 c cs _ _ ih => simp [ih]
  | case4 c cs _ _ none ih =>
    rw [none] at ih
    simpa using ih.symm
  | case5 c cs _ _ l ls some ih =>
    rw [some] at ih
    simpa using ih

/-! ## 3. The rest of a line -/

/-- What is left of a line with its break, seen with the text behind it. -/
inductive RestOfLine (after : List Char) : List Char → Prop
  | nothing (atEnd : after = []) : RestOfLine after []
  | brk {cs : List Char} (h : IsBreak cs after) : RestOfLine after cs
  | char {c : Char} {cs : List Char} (h : isLineBreak c = false) (later : RestOfLine after cs) :
      RestOfLine after (c :: cs)

namespace RestOfLine

variable {after cs xs ys : List Char} {c : Char}

theorem prepend (h : RestOfLine after ys) (unbroken : Unbroken xs) :
    RestOfLine after (xs ++ ys) := by
  induction xs with
  | nil => exact h
  | cons c xs ih =>
    exact .char (unbroken c List.mem_cons_self) (ih fun d hd => unbroken d (.tail c hd))

theorem tail (h : RestOfLine after (c :: cs)) (inner : isLineBreak c = false) :
    RestOfLine after cs := by
  generalize whole : c :: cs = text at h
  cases h with
  | nothing => exact absurd whole (by simp)
  | brk brk =>
    obtain ⟨d, ds, rfl, first⟩ := brk.exists_cons
    rw [← (List.cons.inj whole).1, inner] at first
    exact absurd first (by decide)
  | char _ later =>
    obtain ⟨-, rfl⟩ := List.cons.inj whole
    exact later

theorem of_append (h : RestOfLine after (xs ++ ys)) (unbroken : Unbroken xs) :
    RestOfLine after ys := by
  induction xs with
  | nil => exact h
  | cons c xs ih =>
    exact ih (h.tail (unbroken c List.mem_cons_self)) fun d hd => unbroken d (.tail c hd)

/-- What starts with a break is the break. -/
theorem isBreak (h : RestOfLine after (c :: cs)) (brk : isLineBreak c = true) :
    IsBreak (c :: cs) after := by
  generalize whole : c :: cs = text at h
  cases h with
  | nothing => exact absurd whole (by simp)
  | brk h => exact h
  | char inner =>
    obtain ⟨rfl, -⟩ := List.cons.inj whole
    rw [inner] at brk
    exact absurd brk (by decide)

/-- A line by itself, with nothing behind it, is a line. -/
theorem alone (h : RestOfLine after cs) : RestOfLine [] cs := by
  induction h with
  | nothing => exact .nothing rfl
  | brk h => exact .brk h.alone
  | char inner _ ih => exact .char inner ih

/-- It is the first line of the text that it is left of. -/
theorem physicalLines (h : RestOfLine after cs) (some_text : cs ≠ []) :
    physicalLines (cs ++ after) = cs :: OffsideMarkup.physicalLines after := by
  induction h with
  | nothing => exact absurd rfl some_text
  | brk h => exact physicalLines_break h
  | @char c cs inner later ih =>
    rw [List.cons_append, physicalLines_cons inner]
    cases cs with
    | nil =>
      cases later with
      | nothing atEnd => rw [atEnd]; rfl
      | brk brk => exact absurd brk.exists_cons (by simp)
    | cons d ds => rw [ih (by simp)]

end RestOfLine

end OffsideMarkup
