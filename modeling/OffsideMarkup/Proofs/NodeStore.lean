/-
OffsideMarkup.Proofs.NodeStore — trees of nodes in storage.

The builder stores a node when all that lies under it is stored, so the nodes of a tree lie side by
side, each behind its children, and the index of the root is the last one. `Node.entries` is that
layout, from a first index on; `Node.roots` are the indices of the roots of trees side by side.

Until their parent is stored, such trees have none. Whoever stores a node over them finds the root
of each at its index (`getElem?_rootAt`) and can put the parent in there (`set_rootAt`).
-/
import OffsideMarkup.Proofs.Builder

namespace OffsideMarkup

/-! ## 1. The layout -/

/-- A node as it is stored. -/
def Label.entry (l : Label) (children : List Nat) (parent : Option Nat) : Entry :=
  ⟨l.kind, l.extent, l.extent.length, l.missing, l.level, children, parent⟩

namespace Node

/-- The index of the root of a tree that is stored from an index on. -/
def rootAt (base : Nat) (t : Node) : Nat := base + Rose.sizeAll t.children

/-- The indices of the roots of trees side by side. -/
def roots (base : Nat) : List Node → List Nat
  | [] => []
  | t :: ts => rootAt base t :: roots (base + t.size) ts

mutual
/-- The nodes of a tree as they are stored from an index on. -/
def entries (base : Nat) (parent : Option Nat) : Node → List Entry
  | .node l ts =>
    entriesAll base (some (base + Rose.sizeAll ts)) ts ++ [l.entry (roots base ts) parent]

/-- The same for trees side by side with one parent. -/
def entriesAll (base : Nat) (parent : Option Nat) : List Node → List Entry
  | [] => []
  | t :: ts => t.entries base parent ++ entriesAll (base + t.size) parent ts
end

/-! ## 2. Indices -/

mutual
theorem length_entries (base : Nat) (parent : Option Nat) (t : Node) :
    (t.entries base parent).length = t.size := by
  cases t with
  | node l ts => rw [entries, List.length_append, length_entriesAll, Rose.size]; rfl

theorem length_entriesAll (base : Nat) (parent : Option Nat) (ts : List Node) :
    (entriesAll base parent ts).length = Rose.sizeAll ts := by
  cases ts with
  | nil => rfl
  | cons t ts =>
    rw [entriesAll, List.length_append, length_entries, length_entriesAll, Rose.sizeAll]
end

theorem entriesAll_append (base : Nat) (parent : Option Nat) (ts us : List Node) :
    entriesAll base parent (ts ++ us)
      = entriesAll base parent ts ++ entriesAll (base + Rose.sizeAll ts) parent us := by
  induction ts generalizing base with
  | nil => rfl
  | cons t ts ih =>
    rw [List.cons_append, entriesAll, ih, entriesAll, Rose.sizeAll, List.append_assoc,
      Nat.add_assoc]

theorem roots_append (base : Nat) (ts us : List Node) :
    roots base (ts ++ us) = roots base ts ++ roots (base + Rose.sizeAll ts) us := by
  induction ts generalizing base with
  | nil => rfl
  | cons t ts ih => rw [List.cons_append, roots, ih, roots, Rose.sizeAll, Nat.add_assoc]; rfl

theorem entriesAll_singleton (base : Nat) (parent : Option Nat) (t : Node) :
    entriesAll base parent [t] = t.entries base parent := by
  rw [entriesAll, entriesAll, List.append_nil]

/-- The root of a tree is found at its index. -/
theorem getElem?_rootAt (front tail : List Entry) (parent : Option Nat) (l : Label)
    (ts : List Node) :
    (front ++ (Node.entries front.length parent (.node l ts)) ++ tail)[
        rootAt front.length (.node l ts)]?
      = some (l.entry (roots front.length ts) parent) := by
  have index : rootAt front.length (.node l ts)
      = (front ++ entriesAll front.length (some (front.length + Rose.sizeAll ts)) ts).length := by
    rw [List.length_append, length_entriesAll]
    rfl
  rw [entries, ← List.append_assoc, List.append_assoc, index, List.getElem?_append_right
    (Nat.le_refl _), Nat.sub_self]
  rfl

/-- What is stored first of a tree is a leaf. -/
theorem head_entries (base : Nat) (parent : Option Nat) (t : Node) :
    ∃ e, (t.entries base parent).head? = some e ∧ e.children = [] := by
  match t with
  | .node l [] => exact ⟨_, rfl, rfl⟩
  | .node l (u :: us) =>
    obtain ⟨e, first, leaf⟩ := head_entries base (some (base + Rose.sizeAll (u :: us))) u
    rw [entries, entriesAll]
    simp only [List.head?_append, first, Option.some_or]
    exact ⟨e, rfl, leaf⟩

/-- A parent is put in there, and nothing else changes. -/
theorem set_rootAt (front tail : List Entry) (parent other : Option Nat) (l : Label)
    (ts : List Node) :
    (front ++ (Node.entries front.length parent (.node l ts)) ++ tail).set
        (rootAt front.length (.node l ts)) (l.entry (roots front.length ts) other)
      = front ++ (Node.entries front.length other (.node l ts)) ++ tail := by
  have index : rootAt front.length (.node l ts)
      = (front ++ entriesAll front.length (some (front.length + Rose.sizeAll ts)) ts).length := by
    rw [List.length_append, length_entriesAll]
    rfl
  rw [entries, entries, ← List.append_assoc, List.append_assoc, index,
    List.set_append_right _ _ (Nat.le_refl _), Nat.sub_self]
  simp only [List.append_assoc]
  rfl

end Node

end OffsideMarkup
