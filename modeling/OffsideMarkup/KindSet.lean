/-
OffsideMarkup.KindSet — sets of kinds.

The grammar says where a name or a template stops by a set of kinds. A set is its membership test;
since there are finitely many kinds it can also be listed, and two sets are the same when their
lists are.
-/
import OffsideMarkup.Kind

namespace OffsideMarkup

/-- A set of kinds, given by its membership test. -/
structure KindSet where
  has : Kind → Bool

namespace KindSet

def empty : KindSet := ⟨fun _ => false⟩

def ofList (ks : List Kind) : KindSet := ⟨fun k => ks.contains k⟩

def union (a b : KindSet) : KindSet := ⟨fun k => a.has k || b.has k⟩

def insert (a : KindSet) (k : Kind) : KindSet := ⟨fun x => x == k || a.has x⟩

/-- The members in the order of kinds. -/
def toList (a : KindSet) : List Kind := Kind.all.filter a.has

/-- Two sets with the same members. -/
def same (a b : KindSet) : Bool := a.toList == b.toList

theorem mem_toList (a : KindSet) (k : Kind) : k ∈ a.toList ↔ a.has k = true := by
  simp [toList, Kind.mem_all]

theorem same_iff (a b : KindSet) : a.same b = true ↔ ∀ k, a.has k = b.has k := by
  constructor
  · intro h k
    have e : a.toList = b.toList := by simpa [same] using h
    have ha := mem_toList a k
    rw [e, mem_toList b k] at ha
    exact Bool.eq_iff_iff.mpr ha.symm
  · intro h
    have : a.has = b.has := funext h
    simp [same, toList, this]

end KindSet

end OffsideMarkup
