/-
OffsideMarkup.Proofs.ByteCut — cutting a text at bytes.

A text in parts is cut between them by counting the bytes of the parts in front: `takeBytes` and
`dropBytes` of the length of a part give that part and the others. So a stretch of bytes that starts
and ends between characters is a stretch of characters (`sliceBytes_append`).

Whoever has a text in memory cannot cut it anywhere: a cut inside a character, in the wrong order or
behind the end of the text is refused. `slice?` is the cut in these terms, and it is not refused
where the text is in parts (`slice?_of_split`).
-/
import OffsideMarkup.Text.Location

namespace OffsideMarkup

/-! ## 1. Cuts -/

theorem takeBytes_byteLength (xs ys : List Char) : takeBytes (byteLength xs) (xs ++ ys) = xs := by
  induction xs with
  | nil =>
    cases ys with
    | nil => rfl
    | cons c ys =>
      rw [List.nil_append, takeBytes, if_neg]
      have := c.utf8Size_pos
      rw [byteLength_nil]
      omega
  | cons c xs ih =>
    rw [List.cons_append, takeBytes, byteLength_cons, if_pos (Nat.le_add_right ..),
      Nat.add_sub_cancel_left, ih]

theorem dropBytes_byteLength (xs ys : List Char) : dropBytes (byteLength xs) (xs ++ ys) = ys := by
  have whole := takeBytes_append_dropBytes (byteLength xs) (xs ++ ys)
  rw [takeBytes_byteLength] at whole
  exact List.append_cancel_left whole

/-- The bytes behind one part and in front of another are those of the part between them. -/
theorem sliceBytes_append (xs ys zs : List Char) :
    sliceBytes (byteLength xs) (byteLength xs + byteLength ys) (xs ++ ys ++ zs) = ys := by
  rw [sliceBytes, List.append_assoc, dropBytes_byteLength, Nat.add_sub_cancel_left,
    takeBytes_byteLength]

/-- Between two characters a text is in two parts. -/
theorem isBoundary_iff {n : Nat} {text : List Char} :
    isBoundary n text = true ↔ ∃ before after, text = before ++ after ∧ n = byteLength before := by
  constructor
  · intro h
    exact ⟨takeBytes n text, dropBytes n text, (takeBytes_append_dropBytes n text).symm,
      (by simpa [isBoundary] using h : byteLength (takeBytes n text) = n).symm⟩
  · rintro ⟨before, after, rfl, rfl⟩
    rw [isBoundary, takeBytes_byteLength, beq_self_eq_true]

theorem byteLength_replicate (n : Nat) (c : Char) :
    byteLength (List.replicate n c) = n * c.utf8Size := by
  induction n with
  | zero => rw [Nat.zero_mul]; rfl
  | succ n ih =>
    rw [List.replicate_succ, byteLength_cons, ih, Nat.succ_mul]
    exact Nat.add_comm ..

/-! ## 2. Cuts that can be refused -/

/-- A span that can be cut out of a text: its ends are in order and stand between characters. -/
def Span.fitsIn (s : Span) (text : List Char) : Bool :=
  s.start ≤ s.stop && isBoundary s.start text && isBoundary s.stop text

/-- The characters of a span. -/
def slice? (s : Span) (text : List Char) : Option (List Char) :=
  if s.fitsIn text then some (sliceBytes s.start s.stop text) else none

theorem Span.fitsIn_of_split (before inside after : List Char) :
    Span.fitsIn ⟨byteLength before, byteLength before + byteLength inside⟩
      (before ++ inside ++ after) = true := by
  have start : isBoundary (byteLength before) (before ++ inside ++ after) = true :=
    isBoundary_iff.mpr ⟨before, inside ++ after, List.append_assoc .., rfl⟩
  have stop :
      isBoundary (byteLength before + byteLength inside) (before ++ inside ++ after) = true :=
    isBoundary_iff.mpr ⟨before ++ inside, after, rfl, (byteLength_append ..).symm⟩
  rw [Span.fitsIn, start, stop]
  simp

/-- A part of a text can be cut out. -/
theorem slice?_of_split (before inside after : List Char) :
    slice? ⟨byteLength before, byteLength before + byteLength inside⟩ (before ++ inside ++ after)
      = some inside := by
  rw [slice?, if_pos (Span.fitsIn_of_split ..), sliceBytes_append]

theorem slice?_front (front back : List Char) :
    slice? ⟨0, byteLength front⟩ (front ++ back) = some front := by
  simpa [byteLength_nil] using slice?_of_split [] front back

theorem slice?_back (front back : List Char) :
    slice? ⟨byteLength front, byteLength (front ++ back)⟩ (front ++ back) = some back := by
  simpa [byteLength_append] using slice?_of_split front back []

end OffsideMarkup
