/-
OffsideMarkup.Slots — storage that only grows, addressed by index.

An index is handed out when a value is stored and stays good for as long as the storage is not cut
below it. Cutting gives up the latest values, so that something tried can be taken back.

Indices are words. Storage is not held to that: more values can be stored than there are words, and
then the indices start over from 0 and are those of other values. So what is found at an index that
was just handed out is the value that was stored only where there were words left (`get?_alloc`).
-/
import OffsideMarkup.Text.Number

namespace OffsideMarkup

/-- Stored values, the first one at index 0. -/
structure Slots (α : Type) where
  values : List α
  deriving DecidableEq, Repr

namespace Slots

variable {α : Type}

def empty : Slots α := ⟨[]⟩

def size (s : Slots α) : Nat := s.values.length

def get? (s : Slots α) (i : Nat) : Option α := s.values[i]?

/-- Stores one more value; the index is the first part of the answer. It is the number of values
that were there, cut down to a word. -/
def alloc (s : Slots α) (a : α) : Nat × Slots α := (s.size % wordBound, ⟨s.values ++ [a]⟩)

/-- Changes a value that is there. -/
def set? (s : Slots α) (i : Nat) (a : α) : Option (Slots α) :=
  if i < s.size then some ⟨s.values.set i a⟩ else none

/-- Keeps the first values only. -/
def truncate (s : Slots α) (n : Nat) : Slots α := ⟨s.values.take n⟩

/-- The values with their indices. -/
def enumerate (s : Slots α) : List (Nat × α) :=
  s.values.zipIdx.map fun (a, i) => (i % wordBound, a)

theorem alloc_of_lt (s : Slots α) (a : α) (room : s.size < wordBound) :
    s.alloc a = (s.size, ⟨s.values ++ [a]⟩) := by
  rw [alloc, Nat.mod_eq_of_lt room]

/-- Behind the last word the indices start over. -/
theorem alloc_of_full (s : Slots α) (a : α) (full : s.size = wordBound) :
    s.alloc a = (0, ⟨s.values ++ [a]⟩) := by
  rw [alloc, full, Nat.mod_self]

theorem get?_alloc (s : Slots α) (a : α) (room : s.size < wordBound) :
    (s.alloc a).2.get? (s.alloc a).1 = some a := by
  simp [alloc_of_lt s a room, get?, size]

theorem get?_alloc_of_lt (s : Slots α) (a : α) {i : Nat} (h : i < s.size) :
    (s.alloc a).2.get? i = s.get? i := by
  simp [alloc, get?, List.getElem?_append_left (show i < s.values.length from h)]

theorem get?_truncate (s : Slots α) {n i : Nat} (h : i < n) :
    (s.truncate n).get? i = s.get? i := by
  simp [truncate, get?, List.getElem?_take_of_lt h]

theorem truncate_alloc (s : Slots α) (a : α) : (s.alloc a).2.truncate s.size = s := by
  simp [alloc, truncate, size]

end Slots

end OffsideMarkup
