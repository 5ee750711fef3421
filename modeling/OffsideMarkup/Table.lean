/-
OffsideMarkup.Table — values under keys.

A table holds at most one value under a key that anyone can see: `get?` finds the one that was
inserted last. The two laws of `insert` and the two of `erase` say all there is to know.
-/

namespace OffsideMarkup

/-- Values under keys. -/
structure Table (κ α : Type) where
  entries : List (κ × α)
  deriving Repr, Inhabited

namespace Table

variable {κ α : Type} [DecidableEq κ]

def empty : Table κ α := ⟨[]⟩

/-- The value under a key. -/
def get? (t : Table κ α) (k : κ) : Option α := (t.entries.find? (·.1 = k)).map (·.2)

/-- The table without what is under a key. -/
def erase (t : Table κ α) (k : κ) : Table κ α := ⟨t.entries.filter (·.1 ≠ k)⟩

/-- The table with a value under a key, in place of what was there. -/
def insert (t : Table κ α) (k : κ) (a : α) : Table κ α := ⟨(k, a) :: (t.erase k).entries⟩

theorem get?_empty (k : κ) : (empty : Table κ α).get? k = none := rfl

theorem get?_erase_self (t : Table κ α) (k : κ) : (t.erase k).get? k = none := by
  simp [get?, erase, List.find?_filter]

theorem get?_erase_of_ne (t : Table κ α) {k l : κ} (h : l ≠ k) :
    (t.erase k).get? l = t.get? l := by
  have agree : ∀ e : κ × α, (e.1 ≠ k ∧ e.1 = l) = (e.1 = l) := by
    intro e
    by_cases hl : e.1 = l
    · simp [hl, h]
    · simp [hl]
  simp only [get?, erase, List.find?_filter, decide_eq_true_eq, agree]

theorem get?_insert_self (t : Table κ α) (k : κ) (a : α) : (t.insert k a).get? k = some a := by
  simp [get?, insert]

theorem get?_insert_of_ne (t : Table κ α) {k l : κ} (a : α) (h : l ≠ k) :
    (t.insert k a).get? l = t.get? l := by
  have skip : (t.insert k a).get? l = (t.erase k).get? l := by
    simp [get?, insert, Ne.symm h]
  rw [skip, get?_erase_of_ne t h]

end Table

end OffsideMarkup
