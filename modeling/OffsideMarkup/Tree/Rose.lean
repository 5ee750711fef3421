/-
OffsideMarkup.Tree.Rose — trees with any number of children, and the orders of their nodes.

A syntax tree is asked for its nodes in document order, for the parent of a node, and for a walk
that stops at the first node of interest. All of that is the same for every kind of label, so it
stands here for any label. `number` labels each node with its place in document order, which makes
two nodes with equal labels different.

`walk` is the walk as it is run: it keeps the trees still to visit in a list and puts the children
of a visited node in front. The recursive order is `preorder`.
-/

namespace OffsideMarkup

/-- A label with the trees under it. -/
inductive Rose (α : Type) where
  | node (label : α) (children : List (Rose α))

namespace Rose

variable {α β : Type}

def label : Rose α → α
  | node a _ => a

def children : Rose α → List (Rose α)
  | node _ ts => ts

/-! ## 1. Size and orders -/

mutual
/-- The number of nodes. -/
def size : Rose α → Nat
  | node _ ts => sizeAll ts + 1

def sizeAll : List (Rose α) → Nat
  | [] => 0
  | t :: ts => size t + sizeAll ts
end

mutual
/-- The labels, a node before its children. -/
def preorder : Rose α → List α
  | node a ts => a :: preorderAll ts

def preorderAll : List (Rose α) → List α
  | [] => []
  | t :: ts => preorder t ++ preorderAll ts
end

mutual
/-- The labels, a node after its children. -/
def postorder : Rose α → List α
  | node a ts => postorderAll ts ++ [a]

def postorderAll : List (Rose α) → List α
  | [] => []
  | t :: ts => postorder t ++ postorderAll ts
end

mutual
/-- The labels in document order, each with the labels above it, nearest first. `above` are those
above the root. -/
def withAncestors (above : List α) : Rose α → List (List α × α)
  | node a ts => (above, a) :: withAncestorsAll (a :: above) ts

def withAncestorsAll (above : List α) : List (Rose α) → List (List α × α)
  | [] => []
  | t :: ts => withAncestors above t ++ withAncestorsAll above ts
end

mutual
/-- The trees below and including this one, in document order. -/
def subtrees : Rose α → List (Rose α)
  | node a ts => node a ts :: subtreesAll ts

def subtreesAll : List (Rose α) → List (Rose α)
  | [] => []
  | t :: ts => subtrees t ++ subtreesAll ts
end

/-- The labels of everything under the root, in document order. -/
def descendants (t : Rose α) : List α := preorderAll t.children

/-! ## 2. Numbering -/

mutual
/-- Each label with its place in document order, the root having number `n`. -/
def numberFrom (n : Nat) : Rose α → Rose (Nat × α)
  | node a ts => node (n, a) (numberAllFrom (n + 1) ts)

def numberAllFrom (n : Nat) : List (Rose α) → List (Rose (Nat × α))
  | [] => []
  | t :: ts => numberFrom n t :: numberAllFrom (n + size t) ts
end

/-- Each label with its place in document order, the root being 0. -/
def number (t : Rose α) : Rose (Nat × α) := numberFrom 0 t

/-! ## 3. The walk -/

theorem sizeAll_append (ts us : List (Rose α)) : sizeAll (ts ++ us) = sizeAll ts + sizeAll us := by
  induction ts with
  | nil => simp [sizeAll]
  | cons t ts ih => simp [sizeAll, ih, Nat.add_assoc]

theorem sizeAll_children (t : Rose α) : sizeAll t.children + 1 = t.size := by
  cases t with
  | node a ts => simp [children, size]

/-- Visits the trees of a list and everything under them in document order, until `f` answers.
The result is what was visited, the node that gave the answer included, and the answer. -/
def walk (f : Rose α → Option β) : List (Rose α) → List (Rose α) × Option β
  | [] => ([], none)
  | t :: todo =>
    match f t with
    | some answer => ([t], some answer)
    | none =>
      let later := walk f (t.children ++ todo)
      (t :: later.1, later.2)
termination_by todo => sizeAll todo
decreasing_by
  have := sizeAll_children t
  simp only [sizeAll_append, sizeAll]
  omega

/-- The first node under the root that passes a test. -/
def find? (p : Rose α → Bool) (t : Rose α) : Option (Rose α) :=
  (walk (fun u => if p u then some u else none) t.children).2

end Rose

end OffsideMarkup
