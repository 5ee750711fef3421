/-
OffsideMarkup.Proofs.NodeLabels — what holds of every node of a line.

The nodes of a line come about in two ways: a leaf is made of a token or a literal, and a composite
node is put over others. A property of labels that holds of whatever is made like this (`Kept`)
holds everywhere among the nodes of a line, for which there is one lemma for each part of the syntax.
-/
import OffsideMarkup.Proofs.Tiling

namespace OffsideMarkup

/-- The property holds of leaves, and of composite nodes that are parts of a line. -/
structure Kept (P : Label → Prop) : Prop where
  leaf : ∀ (l : Leaf) (role : Role), P (l.node role).label
  part : ∀ {kind : Kind}, kind.isLine = false → ∀ (start : Location) (ts : List Node)
    (level : Option Nat), P (Node.compose kind start ts level).label

/-- The property holds of these nodes and of all that lie under them. -/
def Everywhere (P : Label → Prop) (ts : List Node) : Prop := ∀ l ∈ Rose.preorderAll ts, P l

namespace Everywhere

variable {P : Label → Prop} {ts us : List Node}

theorem nil : Everywhere P [] := fun l hl => absurd hl (by simp [Rose.preorderAll])

theorem append (h : Everywhere P ts) (h' : Everywhere P us) : Everywhere P (ts ++ us) := by
  intro l hl
  rw [Rose.preorderAll_append, List.mem_append] at hl
  exact hl.elim (h l) (h' l)

theorem cons {t : Node} (h : Everywhere P [t]) (h' : Everywhere P ts) : Everywhere P (t :: ts) :=
  h.append h'

/-- A node, if the property holds of its own label and under it. -/
theorem node {l : Label} (own : P l) (h : Everywhere P ts) : Everywhere P [.node l ts] := by
  intro m hm
  rw [Rose.preorderAll, Rose.preorderAll, List.append_nil, Rose.preorder, List.mem_cons] at hm
  rcases hm with rfl | hm
  · exact own
  · exact h m hm

theorem of_mem {t : Node} (h : Everywhere P ts) (ht : t ∈ ts) : Everywhere P [t] := by
  intro l hl
  rw [Rose.preorderAll, Rose.preorderAll, List.append_nil] at hl
  exact h l (Rose.preorderAll_eq_flatMap ts ▸ List.mem_flatMap_of_mem ht hl)

theorem mono {Q : Label → Prop} (h : Everywhere P ts) (weaker : ∀ l, P l → Q l) :
    Everywhere Q ts := fun l hl => weaker l (h l hl)

theorem left (h : Everywhere P (ts ++ us)) : Everywhere P ts := by
  intro l hl
  refine h l ?_
  rw [Rose.preorderAll_append]
  exact List.mem_append_left _ hl

theorem label {l : Label} (h : Everywhere P [.node l ts]) : P l :=
  h l (List.mem_append_left _ List.mem_cons_self)

/-- The property holds of every node under these. -/
theorem of_mem_subtrees {t u : Node} (h : Everywhere P [t]) (hu : u ∈ t.subtrees) : P u.label := by
  refine h u.label ?_
  rw [Rose.preorderAll, Rose.preorderAll, List.append_nil, ← Rose.map_label_subtrees]
  exact List.mem_map_of_mem hu

theorem root {t : Node} (h : Everywhere P ts) (ht : t ∈ ts) : P t.label :=
  (h.of_mem ht).of_mem_subtrees t.self_mem_subtrees

theorem under {l : Label} (h : Everywhere P [.node l ts]) : Everywhere P ts :=
  fun m hm => h m (List.mem_append_left _ (List.mem_cons_of_mem l hm))

section
variable (kept : Kept P)
include kept

theorem leaf (l : Leaf) (role : Role) : Everywhere P [l.node role] := node (kept.leaf l role) nil

theorem compose (h : Everywhere P ts) {kind : Kind} (part : kind.isLine = false) (start : Location)
    (level : Option Nat) : Everywhere P [Node.compose kind start ts level] :=
  node (kept.part part start ts level) h

omit kept in
theorem pair {α β : Type} {first : α → Node} {second : β → Node}
    (h : ∀ a, Everywhere P [first a]) (h' : ∀ b, Everywhere P [second b]) (p : Option (α × β)) :
    Everywhere P (pairNodes first second p) := by
  cases p with
  | none => exact nil
  | some p => exact cons (h p.1) (h' p.2)

theorem chain {α : Type} {item : α → Node} (h : ∀ a, Everywhere P [item a]) (c : Chain α)
    (role : Role) : Everywhere P [c.node role item] := by
  refine compose kept (cons (h c.head) ?_) rfl _ none
  generalize c.tail = later
  induction later with
  | nil => exact nil
  | cons p later ih => exact (cons (leaf kept p.1 role) (h p.2)).append ih

theorem mustache (m : Mustache) : Everywhere P [m.node] := by
  refine compose kept ?_ rfl _ none
  exact ((cons (leaf kept _ _) (chain kept (leaf kept · _) _ _)).append
    (pair (leaf kept · _) (leaf kept · _) _)).append (leaf kept _ _)

theorem template (t : Template) : Everywhere P [t.node] := by
  refine compose kept ?_ rfl _ none
  generalize t.parts = parts
  induction parts with
  | nil => exact nil
  | cons p parts ih =>
    cases p with
    | literal l => exact (leaf kept l .part).append ih
    | mustache m => exact (mustache kept m).append ih

theorem value (v : Value) : Everywhere P [v.node] := by
  cases v with
  | mustache m => exact mustache kept m
  | template t => exact template kept t

theorem tag (t : Tag) : Everywhere P [t.node] := by
  refine compose kept ?_ rfl _ none
  exact ((cons (leaf kept _ _) (leaf kept _ _)).append
    (pair (leaf kept · _) (chain kept (template kept) · _) _)).append
    (pair (leaf kept · _) (leaf kept · _) _)

theorem body (b : Body) : Everywhere P b.nodes := by
  match b with
  | .comment none => exact nil
  | .comment (some l) => exact leaf kept l .part
  | .attribute a =>
    exact ((cons (leaf kept _ _) (leaf kept _ _)).append
      (pair (leaf kept · _) (leaf kept · _) _)).append (pair (leaf kept · _) (value kept) _)
  | .handler h =>
    exact (((cons (leaf kept _ _) (leaf kept _ _)).append
      (pair (leaf kept · _) (chain kept (leaf kept · _) · _) _)).append
      (cons (leaf kept _ _) (leaf kept _ _))).append (pair (leaf kept · _) (template kept) _)
  | .text sigil content => exact cons (leaf kept _ _) (template kept content)
  | .mountingPoint sigil name => exact cons (leaf kept _ _) (leaf kept _ _)

theorem around (h : Everywhere P ts) (f : Frame) : Everywhere P (f.around ts) := by
  refine (append ?_ h).append (leaf kept _ _)
  cases f.indent with
  | none => exact nil
  | some l => exact leaf kept l .part

/-- All nodes of a line. -/
theorem row (r : Row) : Everywhere P r.nodes := by
  cases r with
  | simple f b => exact around kept (body kept b) f
  | element f t => exact around kept (tag kept t) f

end

end Everywhere

end OffsideMarkup
