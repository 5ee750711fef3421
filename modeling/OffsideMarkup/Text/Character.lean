/-
OffsideMarkup.Text.Character — the character classes of the markup and the two widths of a
character.

A text is a list of code points. Three kinds of position are asked for: bytes of UTF-8, columns in
UTF-16 units, and lines. Bytes and units add up over the characters, so both are one sum with two
widths (`widthBy`), and one lemma says that a text in two parts is as wide as the parts together.

Two classes partition what is not content: line breaks, and the space that may stand inside a line.
The second is wider than ASCII blanks: it holds the Unicode space separators, the zero-width space,
the byte order mark and the next-line control, but not the two Unicode separators that end a line.
-/

namespace OffsideMarkup

/-! ## 1. Line breaks and inline space -/

/-- The characters that end a line: line feed, carriage return and the two Unicode separators. -/
def isLineBreak (c : Char) : Bool :=
  c == '\n' || c == '\r' || c == '\u2028' || c == '\u2029'

/-- Space that does not end a line. -/
def isInlineSpace (c : Char) : Bool :=
  c == ' ' || c == '\t' || c == '\x0b' || c == '\x0c' || c == '\u00a0' || c == '\u0085'
    || c == '\u1680' || ('\u2000' ≤ c && c ≤ '\u200b') || c == '\u202f' || c == '\u205f'
    || c == '\u3000' || c == '\ufeff'

/-- No character is both: a line break is never absorbed as space. -/
theorem isInlineSpace_eq_false_of_isLineBreak {c : Char} (h : isLineBreak c = true) :
    isInlineSpace c = false := by
  simp only [isLineBreak, Bool.or_eq_true, beq_iff_eq] at h
  rcases h with ((h | h) | h) | h <;> subst h <;> decide

/-! ## 2. Widths -/

/-- UTF-16 units of one character: two beyond the Basic Multilingual Plane. -/
def unitWidth (c : Char) : Nat :=
  if c.toNat < 0x10000 then 1 else 2

/-- The width of a text, given that of a character. -/
def widthBy (width : Char → Nat) : List Char → Nat
  | [] => 0
  | c :: cs => width c + widthBy width cs

theorem widthBy_append (width : Char → Nat) (xs ys : List Char) :
    widthBy width (xs ++ ys) = widthBy width xs + widthBy width ys := by
  induction xs with
  | nil => simp [widthBy]
  | cons c xs ih => simp [widthBy, ih, Nat.add_assoc]

/-- Bytes of UTF-8 that a text takes. -/
def byteLength (cs : List Char) : Nat := widthBy Char.utf8Size cs

/-- UTF-16 units that a text takes. -/
def unitLength (cs : List Char) : Nat := widthBy unitWidth cs

theorem byteLength_nil : byteLength [] = 0 := rfl

theorem byteLength_cons (c : Char) (cs : List Char) :
    byteLength (c :: cs) = c.utf8Size + byteLength cs := rfl

theorem byteLength_append (xs ys : List Char) :
    byteLength (xs ++ ys) = byteLength xs + byteLength ys := widthBy_append Char.utf8Size xs ys

theorem unitLength_nil : unitLength [] = 0 := rfl

theorem unitLength_cons (c : Char) (cs : List Char) :
    unitLength (c :: cs) = unitWidth c + unitLength cs := rfl

theorem unitLength_append (xs ys : List Char) :
    unitLength (xs ++ ys) = unitLength xs + unitLength ys := widthBy_append unitWidth xs ys

theorem unitWidth_pos (c : Char) : 0 < unitWidth c := by
  unfold unitWidth; split <;> decide

/-! ## 3. Trimming and cutting -/

/-- A text without the inline space at either end. -/
def trimInline (cs : List Char) : List Char :=
  ((cs.dropWhile isInlineSpace).reverse.dropWhile isInlineSpace).reverse

/-- The longest beginning of a text that fits into `n` bytes. -/
def takeBytes : Nat → List Char → List Char
  | _, [] => []
  | n, c :: cs => if c.utf8Size ≤ n then c :: takeBytes (n - c.utf8Size) cs else []

/-- What `takeBytes` leaves. -/
def dropBytes : Nat → List Char → List Char
  | _, [] => []
  | n, c :: cs => if c.utf8Size ≤ n then dropBytes (n - c.utf8Size) cs else c :: cs

theorem takeBytes_append_dropBytes (n : Nat) (cs : List Char) :
    takeBytes n cs ++ dropBytes n cs = cs := by
  induction cs generalizing n with
  | nil => rfl
  | cons c cs ih =>
    unfold takeBytes dropBytes
    split
    · rw [List.cons_append, ih]
    · rfl

/-- Byte `n` lies between two characters, or at an end of the text. -/
def isBoundary (n : Nat) (cs : List Char) : Bool :=
  byteLength (takeBytes n cs) == n

/-- The characters from byte `start` to byte `stop`. -/
def sliceBytes (start stop : Nat) (cs : List Char) : List Char :=
  takeBytes (stop - start) (dropBytes start cs)

end OffsideMarkup
