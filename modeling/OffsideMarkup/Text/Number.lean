/-
OffsideMarkup.Text.Number — decimal numbers inside a text.

A number may stand behind an event as the code of a key, in a placeholder as the index of an
argument, and in a header as the length of what follows. Everywhere it is made of ASCII digits, at
least one, with a plus sign in front allowed and leading zeros without meaning, and a value that
does not fit its word is none.
-/

namespace OffsideMarkup

/-- One more than the largest number of 32 bits. -/
def wordBound : Nat := 4294967296

/-- One more than the largest number of 64 bits. -/
def longBound : Nat := 18446744073709551616

/-- The value of a run of decimal digits, read from the left onto `acc`. -/
def readDigits (acc : Nat) : List Char → Option Nat
  | [] => some acc
  | c :: cs => if c.isDigit then readDigits (10 * acc + (c.toNat - '0'.toNat)) cs else none

/-- A text without a plus sign in front. -/
def dropPlus : List Char → List Char
  | '+' :: cs => cs
  | cs => cs

/-- A number below `bound`: digits with an optional plus sign in front. -/
def readNumber? (bound : Nat) (cs : List Char) : Option Nat :=
  if (dropPlus cs).isEmpty then none
  else (readDigits 0 (dropPlus cs)).filter (· < bound)

theorem readNumber?_lt {bound n : Nat} {cs : List Char} (h : readNumber? bound cs = some n) :
    n < bound := by
  unfold readNumber? at h
  split at h
  · simp at h
  · simpa using (Option.filter_eq_some_iff.mp h).2

end OffsideMarkup
