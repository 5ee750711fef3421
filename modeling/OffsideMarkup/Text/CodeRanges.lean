/-
OffsideMarkup.Text.CodeRanges — classes of characters given by ranges of code points.
-/

namespace OffsideMarkup

/-- Ranges of code points, first and last, in ascending order. -/
abbrev CodeRanges := List (Nat × Nat)

/-- The character lies in one of the ranges. -/
def CodeRanges.has (ranges : CodeRanges) (c : Char) : Bool :=
  ranges.any fun (first, last) => first ≤ c.toNat && c.toNat ≤ last

end OffsideMarkup
