/-
OffsideMarkup.Proofs.NodeArena — the store of the builder is one tree.

The builder stores a node when it has read all of it. Only then it goes to the children, which are
stored already, and tells them their parent. What it has only tried is cut off again, and the
indices of that are given out once more. So three things have to come together that are written down
at different times: the indices of children, those of parents, and the places of the nodes
themselves.

`Slots.IsTree` says that they do. Walked from its root through the children, the store is a finite
tree; in that tree each node has the one above it as its parent; and after its children first, the
indices are 0, 1, 2 and so on to the last one stored. All else follows from this for any store:

* `IsTree.parent_eq_some`, `IsTree.parent_eq_none` — a node is listed by its parent and by no other
  one, and only the root is listed by none.
* `IsTree.climbs` — from any node, going from parent to parent ends at the root.

`isTree_entries` is where the layout of `NodeStore` comes in, and `arena_is_tree` says it of what is
stored of a text. Where there are more nodes than indices it does not hold (`arena_is_no_tree`).
-/
import Mathlib.Data.List.Forall2
import OffsideMarkup.Proofs.BuilderTotal

namespace OffsideMarkup

/-! ## 1. Children first -/

namespace Rose

variable {α : Type}

/-- Induction over a tree: what holds of all children of a node holds of the node. -/
@[elab_as_elim]
theorem byChildren {motive : Rose α → Prop}
    (node : ∀ a ts, (∀ t ∈ ts, motive t) → motive (.node a ts)) (t : Rose α) : motive t := by
  match t with
  | .node a ts => exact node a ts fun u _ => byChildren node u

/-- Children of something in the tree are in the tree. -/
theorem mem_subtrees_child {t u c : Rose α} (hu : u ∈ t.subtrees)
    (hc : c ∈ u.children) : c ∈ t.subtrees := by
  induction t using byChildren with
  | node a ts ih =>
    rw [mem_subtrees_node]
    rcases mem_subtrees_node.mp hu with rfl | ⟨v, hv, hu⟩
    · exact .inr ⟨c, hc, c.self_mem_subtrees⟩
    · exact .inr ⟨v, hv, ih v hv hu⟩

/-- All but the root are children of something in the tree. -/
theorem eq_or_child_of_mem_subtrees {t c : Rose α} (h : c ∈ t.subtrees) :
    c = t ∨ ∃ u ∈ t.subtrees, c ∈ u.children := by
  induction t using byChildren with
  | node a ts ih =>
    rcases mem_subtrees_node.mp h with rfl | ⟨v, hv, hc⟩
    · exact .inl rfl
    · right
      rcases ih v hv hc with rfl | ⟨u, hu, child⟩
      · exact ⟨.node a ts, self_mem_subtrees _, hv⟩
      · exact ⟨u, mem_subtrees_node.mpr (.inr ⟨v, hv, hu⟩), child⟩

mutual
/-- Children first or last, these are the same labels. -/
theorem postorder_perm (t : Rose α) : t.postorder.Perm t.preorder := by
  cases t with
  | node a ts =>
    rw [postorder, preorder]
    exact (List.perm_append_singleton a _).trans ((postorderAll_perm ts).cons a)

theorem postorderAll_perm (ts : List (Rose α)) : (postorderAll ts).Perm (preorderAll ts) := by
  cases ts with
  | nil => exact .nil
  | cons t ts => exact (postorder_perm t).append (postorderAll_perm ts)
end

theorem mem_postorder {a : α} {t : Rose α} : a ∈ t.postorder ↔ ∃ u ∈ t.subtrees, u.label = a := by
  rw [t.postorder_perm.mem_iff, ← map_label_subtrees, List.mem_map]

theorem postorderAll_eq_flatMap (ts : List (Rose α)) :
    postorderAll ts = ts.flatMap postorder := by
  induction ts with
  | nil => rfl
  | cons t ts ih => rw [postorderAll, ih, List.flatMap_cons]

/-- The nodes of a subtree come in the same order. -/
theorem postorder_sublist {t u : Rose α} (h : u ∈ t.subtrees) :
    u.postorder.Sublist t.postorder := by
  induction t using byChildren with
  | node a ts ih =>
    rcases mem_subtrees_node.mp h with rfl | ⟨v, hv, hu⟩
    · exact .refl _
    · have here : v.postorder.Sublist (postorderAll ts) := by
        rw [postorderAll_eq_flatMap]
        exact List.sublist_flatten_of_mem (List.mem_map_of_mem hv)
      rw [postorder]
      exact ((ih v hv hu).trans here).trans (List.sublist_append_left ..)

theorem map_label_sublist (ts : List (Rose α)) : (ts.map label).Sublist (postorderAll ts) := by
  induction ts with
  | nil => exact .slnil
  | cons t ts ih =>
    obtain ⟨a, us⟩ := t
    rw [List.map_cons, postorderAll, postorder, ← List.singleton_append]
    exact (List.sublist_append_right ..).append ih

/-- What holds from earlier to later nodes holds from a child to the next ones and to its parent. -/
theorem pairwise_children {R : α → α → Prop} {t u : Rose α} (order : t.postorder.Pairwise R)
    (hu : u ∈ t.subtrees) :
    (u.children.map label).Pairwise R ∧ ∀ c ∈ u.children, R c.label u.label := by
  have own := order.sublist (postorder_sublist hu)
  obtain ⟨a, ts⟩ := u
  rw [postorder, List.pairwise_append] at own
  refine ⟨own.1.sublist (map_label_sublist ts), fun c hc => ?_⟩
  have place : c.label ∈ postorderAll ts := (map_label_sublist ts).mem (List.mem_map_of_mem hc)
  exact own.2.2 c.label place a (List.mem_singleton_self a)

end Rose

/-! ## 2. Stores and trees -/

namespace Slots

variable {s : Slots Entry} {parent : Option Nat} {t u c : Rose Nat}

mutual
/-- Walked from an index through the children the store is this tree of indices, and each node has
the one above it as its parent. -/
def Holds (s : Slots Entry) (parent : Option Nat) : Rose Nat → Prop
  | .node i ts =>
    (∃ e, s.get? i = some e ∧ e.children = ts.map Rose.label ∧ e.parent = parent)
      ∧ HoldsAll s (some i) ts

def HoldsAll (s : Slots Entry) (parent : Option Nat) : List (Rose Nat) → Prop
  | [] => True
  | t :: ts => Holds s parent t ∧ HoldsAll s parent ts
end

/-- The store is a tree and nothing else. Its indices number the nodes, children first. -/
structure IsTree (s : Slots Entry) (t : Rose Nat) : Prop where
  holds : s.Holds none t
  order : t.postorder = List.range s.size

/-- Each index of the list is that of the parent of the one in front, and the last one has no
parent. -/
def Climbs (s : Slots Entry) : List Nat → Prop
  | [] => True
  | i :: above => (∃ e, s.get? i = some e ∧ e.parent = above.head?) ∧ Climbs s above

theorem holdsAll_iff {ts : List (Rose Nat)} :
    s.HoldsAll parent ts ↔ ∀ t ∈ ts, s.Holds parent t := by
  induction ts with
  | nil => simp [HoldsAll]
  | cons t ts ih => rw [HoldsAll, ih, List.forall_mem_cons]

theorem Holds.entry (h : s.Holds parent t) :
    ∃ e, s.get? t.label = some e ∧ e.children = t.children.map Rose.label ∧ e.parent = parent := by
  obtain ⟨i, ts⟩ := t
  exact h.1

theorem Holds.child (h : s.Holds parent t) (hc : c ∈ t.children) :
    s.Holds (some t.label) c := by
  obtain ⟨i, ts⟩ := t
  exact holdsAll_iff.mp h.2 c hc

theorem Holds.of_mem_subtrees (h : s.Holds parent t) (hu : u ∈ t.subtrees) :
    ∃ p, s.Holds p u := by
  induction t using Rose.byChildren generalizing parent with
  | node i ts ih =>
    rcases Rose.mem_subtrees_node.mp hu with rfl | ⟨v, hv, hu⟩
    · exact ⟨parent, h⟩
    · exact ih v hv (h.child hv) hu

/-! ## 3. What a store that is a tree has -/

namespace IsTree

variable {i p : Nat} {e f : Entry}

theorem exists_subtree (h : s.IsTree t) (stored : s.get? i = some e) :
    ∃ u ∈ t.subtrees, u.label = i := by
  refine Rose.mem_postorder.mp ?_
  rw [h.order, List.mem_range]
  exact (List.getElem?_eq_some_iff.mp stored).1

/-- The root is the last node, and it has no parent. Any other node has. -/
theorem root_or_child (h : s.IsTree t) (stored : s.get? i = some e) :
    i = t.label ∧ e.parent = none
      ∨ ∃ u ∈ t.subtrees, i ∈ u.children.map Rose.label ∧ e.parent = some u.label := by
  obtain ⟨c, hc, rfl⟩ := h.exists_subtree stored
  rcases Rose.eq_or_child_of_mem_subtrees hc with rfl | ⟨u, hu, child⟩
  · obtain ⟨e', stored', -, parent⟩ := h.holds.entry
    obtain rfl := Option.some.inj (stored.symm.trans stored')
    exact .inl ⟨rfl, parent⟩
  · obtain ⟨q, holds⟩ := h.holds.of_mem_subtrees hu
    obtain ⟨e', stored', -, parent⟩ := (holds.child child).entry
    obtain rfl := Option.some.inj (stored.symm.trans stored')
    exact .inr ⟨u, hu, List.mem_map_of_mem child, parent⟩

/-- A node that lists another one is its parent. -/
theorem parent_of_mem (h : s.IsTree t) (stored : s.get? i = some e) (above : s.get? p = some f)
    (listed : i ∈ f.children) : e.parent = some p := by
  obtain ⟨u, hu, rfl⟩ := h.exists_subtree above
  obtain ⟨q, holds⟩ := h.holds.of_mem_subtrees hu
  obtain ⟨f', above', children, -⟩ := holds.entry
  obtain rfl := Option.some.inj (above.symm.trans above')
  rw [children] at listed
  obtain ⟨c, hc, rfl⟩ := List.mem_map.mp listed
  obtain ⟨e', stored', -, parent⟩ := (holds.child hc).entry
  obtain rfl := Option.some.inj (stored.symm.trans stored')
  exact parent

/-- The parent of a node is the one that lists it as a child. -/
theorem parent_eq_some (h : s.IsTree t) (stored : s.get? i = some e) :
    e.parent = some p ↔ ∃ f, s.get? p = some f ∧ i ∈ f.children := by
  constructor
  · intro parent
    rcases h.root_or_child stored with ⟨-, none⟩ | ⟨u, hu, listed, above⟩
    · rw [none] at parent
      exact absurd parent (by simp)
    · obtain ⟨q, holds⟩ := h.holds.of_mem_subtrees hu
      obtain ⟨f, stored', children, -⟩ := holds.entry
      obtain rfl := Option.some.inj (above.symm.trans parent)
      exact ⟨f, stored', children ▸ listed⟩
  · rintro ⟨f, above, listed⟩
    exact h.parent_of_mem stored above listed

theorem parent_eq_none (h : s.IsTree t) (stored : s.get? i = some e) :
    e.parent = none ↔ i = t.label := by
  constructor
  · intro parent
    rcases h.root_or_child stored with ⟨root, -⟩ | ⟨u, -, -, above⟩
    · exact root
    · rw [parent] at above
      exact absurd above (by simp)
  · rintro rfl
    obtain ⟨e', stored', -, parent⟩ := h.holds.entry
    obtain rfl := Option.some.inj (stored.symm.trans stored')
    exact parent

/-- Children are listed once and in the order of their indices, and come before their parent. -/
theorem children_of_entry (h : s.IsTree t) (stored : s.get? i = some e) :
    e.children.Pairwise (· < ·) ∧ ∀ c ∈ e.children, c < i := by
  obtain ⟨u, hu, rfl⟩ := h.exists_subtree stored
  obtain ⟨q, holds⟩ := h.holds.of_mem_subtrees hu
  obtain ⟨e', stored', children, -⟩ := holds.entry
  obtain rfl := Option.some.inj (stored.symm.trans stored')
  have order : t.postorder.Pairwise (· < ·) := h.order ▸ List.pairwise_lt_range
  obtain ⟨sorted, first⟩ := Rose.pairwise_children order hu
  rw [children]
  exact ⟨sorted, List.forall_mem_map.mpr first⟩

/-- From any node the way from parent to parent ends at the root. -/
theorem climbs (h : s.IsTree t) (stored : s.get? i = some e) :
    ∃ above, s.Climbs (i :: above) ∧ (i :: above).getLast? = some t.label := by
  -- Parents have larger indices, and these are bounded by the number of nodes.
  have bound := (List.getElem?_eq_some_iff.mp stored).1
  induction rest : s.size - i using Nat.strong_induction_on generalizing i e with
  | _ n ih =>
    rcases h.root_or_child stored with ⟨rfl, none⟩ | ⟨u, hu, -, parent⟩
    · exact ⟨[], ⟨⟨e, stored, none⟩, trivial⟩, rfl⟩
    · obtain ⟨f, above, listed⟩ := (h.parent_eq_some stored).mp parent
      have later := (h.children_of_entry above).2 i listed
      have inside := (List.getElem?_eq_some_iff.mp above).1
      have size : s.values.length = s.size := rfl
      obtain ⟨rest, climbs, last⟩ := ih (s.size - u.label) (by omega) above inside rfl
      exact ⟨u.label :: rest, ⟨⟨e, stored, parent⟩, climbs⟩, by rwa [List.getLast?_cons_cons]⟩

end IsTree

end Slots

/-! ## 4. The layout of a tree -/

namespace Node

mutual
/-- The indices that the nodes of a tree have, if it is stored from an index on. -/
def indices (base : Nat) : Node → Rose Nat
  | .node _ ts => .node (base + Rose.sizeAll ts) (indicesAll base ts)

def indicesAll (base : Nat) : List Node → List (Rose Nat)
  | [] => []
  | t :: ts => t.indices base :: indicesAll (base + t.size) ts
end

theorem label_indices (base : Nat) (t : Node) : (t.indices base).label = t.rootAt base := by
  obtain ⟨l, ts⟩ := t
  rw [indices]
  rfl

theorem map_label_indicesAll (base : Nat) (ts : List Node) :
    (indicesAll base ts).map Rose.label = roots base ts := by
  induction ts generalizing base with
  | nil => rfl
  | cons t ts ih => rw [indicesAll, List.map_cons, label_indices, ih, roots]

mutual
theorem postorder_indices (base : Nat) (t : Node) :
    (t.indices base).postorder = List.range' base t.size := by
  cases t with
  | node l ts =>
    rw [indices, Rose.postorder, postorderAll_indicesAll, Rose.size, List.range'_concat]
    simp

theorem postorderAll_indicesAll (base : Nat) (ts : List Node) :
    Rose.postorderAll (indicesAll base ts) = List.range' base (Rose.sizeAll ts) := by
  cases ts with
  | nil => rfl
  | cons t ts =>
    rw [indicesAll, Rose.postorderAll, postorder_indices, postorderAll_indicesAll, Rose.sizeAll,
      List.range'_append_1]
end

mutual
theorem holds_entries (front tail : List Entry) (parent : Option Nat) (t : Node) :
    (Slots.mk (front ++ t.entries front.length parent ++ tail)).Holds parent
      (t.indices front.length) := by
  cases t with
  | node l ts =>
    have children := holdsAll_entriesAll front
      ([l.entry (roots front.length ts) parent] ++ tail) (some (front.length + Rose.sizeAll ts)) ts
    refine ⟨⟨_, getElem?_rootAt front tail parent l ts, ?_, rfl⟩, ?_⟩
    · exact (map_label_indicesAll front.length ts).symm
    · rw [entries]
      simpa only [List.append_assoc] using children

theorem holdsAll_entriesAll (front tail : List Entry) (parent : Option Nat) (ts : List Node) :
    (Slots.mk (front ++ entriesAll front.length parent ts ++ tail)).HoldsAll parent
      (indicesAll front.length ts) := by
  cases ts with
  | nil => trivial
  | cons t ts =>
    have first := holds_entries front
      (entriesAll (front.length + t.size) parent ts ++ tail) parent t
    have later := holdsAll_entriesAll (front ++ t.entries front.length parent) tail parent ts
    rw [List.length_append, length_entries] at later
    rw [entriesAll, indicesAll]
    exact ⟨by simpa only [List.append_assoc] using first,
      by simpa only [List.append_assoc] using later⟩
end

/-- A tree that is stored from the first slot on is all there is. -/
theorem isTree_entries (t : Node) : (Slots.mk (t.entries 0 none)).IsTree (t.indices 0) := by
  have holds := holds_entries [] [] none t
  rw [List.nil_append, List.append_nil] at holds
  refine ⟨holds, ?_⟩
  show (t.indices 0).postorder = List.range (t.entries 0 none).length
  rw [postorder_indices, length_entries, List.range_eq_range']

mutual
/-- What is stored says of each node what its label says, children first. -/
theorem entries_of_postorder (base : Nat) (parent : Option Nat) (t : Node) :
    List.Forall₂ (fun e l => ∃ children parent, e = l.entry children parent)
      (t.entries base parent) t.postorder := by
  cases t with
  | node l ts =>
    rw [entries, Rose.postorder]
    exact List.rel_append (entriesAll_of_postorder _ _ ts) (.cons ⟨_, _, rfl⟩ .nil)

theorem entriesAll_of_postorder (base : Nat) (parent : Option Nat) (ts : List Node) :
    List.Forall₂ (fun e l => ∃ children parent, e = l.entry children parent)
      (entriesAll base parent ts) (Rose.postorderAll ts) := by
  cases ts with
  | nil => exact .nil
  | cons t ts =>
    rw [entriesAll, Rose.postorderAll]
    exact List.rel_append (entries_of_postorder _ _ t) (entriesAll_of_postorder _ _ ts)
end

end Node

/-! ## 5. Texts -/

/-- What the builder stores of a text with no more nodes than there are indices is the tree of the
file: walked from the root it is that tree, with the indices in the order of the nodes, children
first, up to the root, and it holds nothing else. Parents and children say the same of each other,
only the root has no parent, and the way up from any node ends there. What stands at an index is the
node that has that place in the tree, also where the index was given out before and taken back. -/
theorem arena_is_tree (variant : Variant) (text : List Char) (short : byteLength text < wordBound)
    (few : (SourceFile.ofText variant text).root.size ≤ wordBound) :
    let tree := (SourceFile.ofText variant text).root
    let root := tree.rootAt 0
    ∃ b, build text = Part.some (.ok (root, b))
      ∧ b.nodes.IsTree (tree.indices 0) ∧ (tree.indices 0).label = root ∧ b.nodes.size = root + 1
      ∧ (∀ i e, b.nodes.get? i = some e →
        i < wordBound ∧ (e.parent = none ↔ i = root)
          ∧ (∀ p, e.parent = some p ↔ ∃ f, b.nodes.get? p = some f ∧ i ∈ f.children)
          ∧ e.children.Pairwise (· < ·) ∧ (∀ c ∈ e.children, c < i)
          ∧ ∃ above, b.nodes.Climbs (i :: above) ∧ (i :: above).getLast? = some root)
      ∧ List.Forall₂ (fun e l => ∃ children parent, e = l.entry children parent) b.nodes.values
        tree.postorder := by
  intro tree root
  obtain ⟨b, built, values, -⟩ := exists_build variant text short few
  have nodes : b.nodes = ⟨tree.entries 0 none⟩ := congrArg Slots.mk values
  have isTree : b.nodes.IsTree (tree.indices 0) := nodes ▸ tree.isTree_entries
  have label : (tree.indices 0).label = root := tree.label_indices 0
  have size : b.nodes.size = tree.size := nodes ▸ Node.length_entries 0 none tree
  refine ⟨b, built, isTree, label, ?_, fun i e stored => ?_,
    values ▸ tree.entries_of_postorder 0 none⟩
  · rw [size, ← tree.sizeAll_children]
    exact congrArg (· + 1) (Nat.zero_add _).symm
  · obtain ⟨sorted, first⟩ := isTree.children_of_entry stored
    have inside : i < b.nodes.size := (List.getElem?_eq_some_iff.mp stored).1
    rw [← label]
    exact ⟨inside.trans_le (size.trans_le few), isTree.parent_eq_none stored,
      fun p => isTree.parent_eq_some stored, sorted, first, isTree.climbs stored⟩

/-- An attribute under an element has 15 nodes, and the root is the last of them. -/
theorem arena_is_tree_of_attribute :
    byteLength ['>', 'p', '\n', ' ', '#', 'a', '=', 'b'] < wordBound
      ∧ (SourceFile.ofText .html ['>', 'p', '\n', ' ', '#', 'a', '=', 'b']).root.size ≤ wordBound
      ∧ ∃ b t, build ['>', 'p', '\n', ' ', '#', 'a', '=', 'b'] = Part.some (.ok (14, b))
        ∧ b.nodes.IsTree t ∧ t.label = 14 ∧ b.nodes.size = 15 := by
  have short : byteLength ['>', 'p', '\n', ' ', '#', 'a', '=', 'b'] < wordBound := by decide
  have few : (SourceFile.ofText .html ['>', 'p', '\n', ' ', '#', 'a', '=', 'b']).root.size
      ≤ wordBound := by decide +kernel
  have root : (SourceFile.ofText .html ['>', 'p', '\n', ' ', '#', 'a', '=', 'b']).root.rootAt 0
      = 14 := by decide +kernel
  obtain ⟨b, built, isTree, label, stored, -⟩ := arena_is_tree .html
    ['>', 'p', '\n', ' ', '#', 'a', '=', 'b'] short few
  rw [root] at built label stored
  exact ⟨short, few, b, _, built, isTree, label, stored⟩

/-- With one node too many what is stored is no tree under the root that the machine gives: that is
a leaf, and it has a parent, which is a line and has none. -/
theorem arena_is_no_tree :
    byteLength (List.replicate 1431655765 '\n') < wordBound
      ∧ ∃ b e line, build (List.replicate 1431655765 '\n') = Part.some (.ok (0, b))
        ∧ b.nodes.size = wordBound + 1
        ∧ b.nodes.get? 0 = some e ∧ e.children = [] ∧ e.parent = some 2
        ∧ b.nodes.get? 2 = some line ∧ line.kind = .commentLine ∧ line.parent = none
        ∧ ¬∃ t, b.nodes.IsTree t ∧ t.label = 0 := by
  obtain ⟨b, line, built, size, first, stored, kind, parent⟩ := build_feeds (n := 1431655764) rfl
  rw [byteLength_feeds]
  refine ⟨by decide, b, _, line, built, size, first, rfl, rfl, stored, kind, parent, ?_⟩
  rintro ⟨t, isTree, root⟩
  have alone := (isTree.parent_eq_none first).mpr root.symm
  exact absurd alone (by simp)

end OffsideMarkup
