/-
OffsideMarkup.Proofs.StackWalk — the walk over a store that keeps a stack.

A node in a store lists the indices of its children and nothing else. To visit all that lies under a
node, the walk keeps the indices still to visit on a stack. The children of a visited node are
pushed one by one, as they are met, so the last one would be on top; the stretch that was just
pushed is turned round in place. The walk ends with the stack, or with the first visit that answers.

`Slots.walk` is that loop, the least fixed point of one round of it. It is run on any store, so it
may find no node at an index, and on a store with cycles it does not end; then it has no result. The
recursive order is that of a tree, so trees come in as `Slots.Unfolds`: from the root of the tree
on, the store lists the children that the tree has. Then all rests on one invariant
(`walkStack_eq`): read from the top, the stack holds the roots of the trees whose nodes are still to
visit, and these are called in pre-order (`callEach`).

* `IsForest.exists_unfolds` — a store where no child is listed twice and none lies under itself
  unfolds to a tree from each of its indices, and no index comes twice in such a tree.
* `IsTree.isForest` — what the builder stores is such a store.
* `leaves_of_text` — the walk over a file finds the leaves of its tree, and these lie side by side
  (`Sound.fill_leaves`), so they come in the order of the text.
-/
import Mathlib.Control.LawfulFix
import Mathlib.Data.Fintype.Card
import Mathlib.Logic.Relation
import Mathlib.Order.WellFounded
import OffsideMarkup.Proofs.NodeArena
import OffsideMarkup.Proofs.ReaderYield

namespace OffsideMarkup

open OmegaCompletePartialOrder

/-! ## 1. Calls one after the other -/

section

variable {ι σ β : Type}

/-- Calls `f` on each of a list in turn, up to the first one that answers. A call may change the
state; the result is the answer, if there is one, and the state in the end. -/
def callEach (f : ι → σ → Option β × σ) : List ι → σ → Option β × σ
  | [], st => (none, st)
  | i :: is, st =>
    match f i st with
    | (some answer, st) => (some answer, st)
    | (none, st) => callEach f is st

/-- Called on all of a list, in this order, `f` does not answer and leads from one state to
another. -/
def Silent (f : ι → σ → Option β × σ) : List ι → σ → σ → Prop
  | [], st, last => st = last
  | i :: is, st, last => ∃ mid, f i st = (none, mid) ∧ Silent f is mid last

variable {f : ι → σ → Option β × σ} {is js : List ι} {i : ι} {st mid last : σ} {answer : β}

theorem callEach_of_answer (h : f i st = (some answer, last)) :
    callEach f (i :: is) st = (some answer, last) := by
  simp [callEach, h]

theorem callEach_of_none (h : f i st = (none, mid)) :
    callEach f (i :: is) st = callEach f is mid := by
  simp [callEach, h]

/-- Either one of the list answers after silence, or all of it is silent. -/
theorem callEach_cases (f : ι → σ → Option β × σ) (is : List ι) (st : σ) :
    (∃ front i back mid answer last, is = front ++ i :: back ∧ Silent f front st mid
        ∧ f i mid = (some answer, last) ∧ callEach f is st = (some answer, last))
      ∨ ∃ last, Silent f is st last ∧ callEach f is st = (none, last) := by
  induction is generalizing st with
  | nil => exact .inr ⟨st, rfl, rfl⟩
  | cons i is ih =>
    rcases call : f i st with ⟨_ | answer, mid⟩
    · rw [callEach_of_none call]
      rcases ih mid with
        ⟨front, j, back, mid', answer, last, rfl, silent, rest⟩ | ⟨last, silent, rest⟩
      · exact .inl ⟨i :: front, j, back, mid', answer, last, rfl, ⟨mid, call, silent⟩, rest⟩
      · exact .inr ⟨last, ⟨mid, call, silent⟩, rest⟩
    · exact .inl ⟨[], i, is, st, answer, mid, rfl, rfl, call, callEach_of_answer call⟩

theorem callEach_congr {κ : Type} (g : κ → ι) (ks : List κ) :
    callEach f (ks.map g) st = callEach (fun k => f (g k)) ks st := by
  induction ks generalizing st with
  | nil => rfl
  | cons k ks ih =>
    rw [List.map_cons, callEach, callEach]
    split <;> simp_all

/-- Without a state to change, the answer is the first one. -/
theorem callEach_pure (g : ι → Option β) (is : List ι) :
    callEach (fun i st => (g i, st)) is st = (is.findSome? g, st) := by
  induction is with
  | nil => rfl
  | cons i is ih => cases h : g i <;> simp [callEach, h, ih]

/-- Without an answer, all that pass a test are collected. -/
theorem callEach_collect (p : ι → Bool) (is found : List ι) :
    callEach (fun i found => ((none : Option β), if p i then found ++ [i] else found)) is found
      = (none, found ++ is.filter p) := by
  induction is generalizing found with
  | nil => simp [callEach]
  | cons i is ih => cases h : p i <;> simp [callEach, h, ih]

end

/-- Calls that do the same to two states, one of which is read off the other. -/
theorem callEach_image {ι σ τ β : Type} (f : ι → σ → Option β × σ) (f' : ι → τ → Option β × τ)
    (g : σ → τ) (h : ∀ i st, f' i (g st) = ((f i st).1, g (f i st).2)) (is : List ι) (st : σ) :
    callEach f' is (g st) = ((callEach f is st).1, g (callEach f is st).2) := by
  induction is generalizing st with
  | nil => rfl
  | cons i is ih =>
    have call := h i st
    rcases step : f i st with ⟨_ | answer, mid⟩
    · rw [step] at call
      rw [callEach_of_none step, callEach_of_none call, ih]
    · rw [step] at call
      rw [callEach_of_answer step, callEach_of_answer call]

/-- The walk over trees is the calls on their subtrees, with a note of each. -/
theorem Rose.walk_eq {α β : Type} (f : Rose α → Option β) (ts seen : List (Rose α)) :
    callEach (fun t seen => (f t, seen ++ [t])) (subtreesAll ts) seen
      = ((walk f ts).2, seen ++ (walk f ts).1) := by
  fun_induction Rose.walk f ts generalizing seen with
  | case1 => simp [subtreesAll, callEach]
  | case2 t todo answer found =>
    obtain ⟨a, us⟩ := t
    rw [subtreesAll, subtrees, List.cons_append]
    exact callEach_of_answer (by rw [found])
  | case3 t todo found later ih =>
    obtain ⟨a, us⟩ := t
    rw [subtreesAll, subtrees, List.cons_append, ← subtreesAll_append,
      callEach_of_none (by rw [found])]
    refine (ih (seen ++ [.node a us])).trans ?_
    rw [List.append_assoc]
    rfl

namespace Slots

variable {σ β : Type} {s : Slots Entry} {i j : Nat} {t u c : Rose Nat} {ts : List (Rose Nat)}

/-! ## 2. The loop -/

/-- Pushes the children of a node, so that the first one is on top. The end of the list is the top
of the stack. There may be no such node. -/
def pushChildren (s : Slots Entry) (i : Nat) (stack : List Nat) : Option (List Nat) :=
  (s.get? i).map fun e =>
    let push (child : Nat) (stack : List Nat) := ((none : Option Unit), stack ++ [child])
    let pushed := (callEach push e.children stack).2
    pushed.take stack.length ++ (pushed.drop stack.length).reverse

/-- One round of the loop, which goes on with the rest: a visit to what is on top of the stack, and
its children in place of it if the visit does not answer. -/
def walkRound (s : Slots Entry) (f : Nat → σ → Option β × σ)
    (rest : List Nat → σ → Part (Option β × σ)) (stack : List Nat) (st : σ) :
    Part (Option β × σ) :=
  match stack.getLast? with
  | none => pure (none, st)
  | some i =>
    match f i st with
    | (some answer, st) => pure (some answer, st)
    | (none, st) => Part.ofOption (s.pushChildren i stack.dropLast) >>= fun stack => rest stack st

/-- Visits what is on the stack and everything under it, until a visit answers. -/
def walkStack (s : Slots Entry) (f : Nat → σ → Option β × σ) :
    List Nat → σ → Part (Option β × σ) :=
  Fix.fix (s.walkRound f)

theorem continuous_walkRound (s : Slots Entry) (f : Nat → σ → Option β × σ) :
    ωScottContinuous (s.walkRound f) := by
  refine ωScottContinuous.of_apply₂ fun stack => ωScottContinuous.of_apply₂ fun st => ?_
  unfold walkRound
  split
  · exact ωScottContinuous.const
  · split
    · exact ωScottContinuous.const
    · refine ContinuousHom.ωScottContinuous.bind ωScottContinuous.const ?_
      fun_prop

theorem walkStack_fix (s : Slots Entry) (f : Nat → σ → Option β × σ) :
    s.walkStack f = s.walkRound f (s.walkStack f) :=
  LawfulFix.fix_eq (s.continuous_walkRound f)

/-- Visits everything under a node. -/
def walk (s : Slots Entry) (f : Nat → σ → Option β × σ) (i : Nat) (st : σ) :
    Part (Option β × σ) :=
  Part.ofOption (s.pushChildren i []) >>= fun stack => s.walkStack f stack st

/-- The children of a node, read off a stack with nothing else on it. -/
def childrenOf (s : Slots Entry) (i : Nat) : Option (List Nat) :=
  (s.pushChildren i []).map List.reverse

/-- The first node under a root that passes a test. -/
def find? (s : Slots Entry) (root : Nat) (p : Entry → Bool) : Part (Option Nat) :=
  (s.walk (fun i st => (Option.guard (fun i => (s.get? i).any p) i, st)) root ()).map (·.1)

/-- All nodes under a root that pass a test. -/
def findAll (s : Slots Entry) (root : Nat) (p : Entry → Bool) : Part (List Nat) :=
  (s.walk (fun i found => ((none : Option Unit),
    if (s.get? i).any p then found ++ [i] else found)) root []).map (·.2)

/-- Tokens and literals under a root. -/
def leaves (s : Slots Entry) (root : Nat) : Part (List Nat) :=
  s.findAll root fun e => e.kind.isToken || e.kind == .literal

theorem pushChildren_eq (i : Nat) (stack : List Nat) :
    s.pushChildren i stack = (s.get? i).map fun e => stack ++ e.children.reverse := by
  have collected (children : List Nat) :
      callEach (fun child stack => ((none : Option Unit), stack ++ [child])) children stack
        = (none, stack ++ children) := by
    refine (callEach_collect (fun _ => true) children stack).trans ?_
    rw [List.filter_true]
  unfold pushChildren
  simp [collected]

/-! ## 3. A store read as a tree -/

mutual
/-- From its root on, the children of the tree are those that the store lists. -/
def Unfolds (s : Slots Entry) : Rose Nat → Prop
  | .node i ts => (∃ e, s.get? i = some e ∧ e.children = ts.map Rose.label) ∧ UnfoldsAll s ts

def UnfoldsAll (s : Slots Entry) : List (Rose Nat) → Prop
  | [] => True
  | t :: ts => Unfolds s t ∧ UnfoldsAll s ts
end

theorem unfoldsAll_iff : s.UnfoldsAll ts ↔ ∀ t ∈ ts, s.Unfolds t := by
  induction ts with
  | nil => simp [UnfoldsAll]
  | cons t ts ih => simp [UnfoldsAll, ih]

theorem unfoldsAll_append {us : List (Rose Nat)} :
    s.UnfoldsAll (ts ++ us) ↔ s.UnfoldsAll ts ∧ s.UnfoldsAll us := by
  simp only [unfoldsAll_iff, List.forall_mem_append]

theorem Holds.unfolds {parent : Option Nat} (h : s.Holds parent t) : s.Unfolds t := by
  induction t using Rose.byChildren generalizing parent with
  | node i ts ih =>
    obtain ⟨e, stored, children, -⟩ := h.entry
    exact ⟨⟨e, stored, children⟩, unfoldsAll_iff.mpr fun u hu => ih u hu (h.child hu)⟩

theorem pushChildren_node (h : s.Unfolds (.node i ts)) (stack : List Nat) :
    s.pushChildren i stack = some (stack ++ (ts.map Rose.label).reverse) := by
  obtain ⟨⟨e, stored, children⟩, -⟩ := h
  rw [pushChildren_eq, stored, Option.map_some, children]

/-- The invariant of the loop: read from the top, the stack holds the roots of the trees that are
still to visit. What is called is their nodes in pre-order. -/
theorem walkStack_eq (f : Nat → σ → Option β × σ) (ts : List (Rose Nat)) (h : s.UnfoldsAll ts)
    (st : σ) : s.walkStack f (ts.map Rose.label).reverse st
      = Part.some (callEach f (Rose.preorderAll ts) st) := by
  match ts with
  | [] =>
    rw [walkStack_fix]
    rfl
  | .node i us :: ts =>
    obtain ⟨first, later⟩ := h
    have todo := unfoldsAll_append.mpr ⟨first.2, later⟩
    rw [walkStack_fix, walkRound, Rose.preorderAll, Rose.preorder, List.cons_append,
      ← Rose.preorderAll_append]
    simp only [List.map_cons, Rose.label, List.reverse_cons, List.getLast?_append,
      List.getLast?_singleton, Option.some_or, List.dropLast_concat]
    rcases call : f i st with ⟨_ | answer, mid⟩
    · have next := walkStack_eq f (us ++ ts) todo mid
      rw [List.map_append, List.reverse_append] at next
      rw [callEach_of_none call, pushChildren_node first, ← next]
      exact Part.bind_some _ _
    · rw [callEach_of_answer call]
      rfl
termination_by Rose.sizeAll ts
decreasing_by simp only [Rose.sizeAll_append, Rose.sizeAll, Rose.size]; omega

/-- Walked from the root of a tree, everything under it is called in pre-order. -/
theorem walk_eq (h : s.Unfolds t) (f : Nat → σ → Option β × σ) (st : σ) :
    s.walk f t.label st = Part.some (callEach f t.descendants st) := by
  obtain ⟨i, ts⟩ := t
  unfold walk
  rw [Rose.label, pushChildren_node h, List.nil_append]
  exact (Part.bind_some _ _).trans (walkStack_eq f ts h.2 st)

theorem childrenOf_eq (h : s.Unfolds t) :
    s.childrenOf t.label = some (t.children.map Rose.label) := by
  obtain ⟨i, ts⟩ := t
  simp [childrenOf, Rose.label, Rose.children, pushChildren_node h]

theorem find?_eq (h : s.Unfolds t) (p : Entry → Bool) :
    s.find? t.label p = Part.some (t.descendants.find? fun i => (s.get? i).any p) := by
  rw [find?, walk_eq h, callEach_pure, List.findSome?_guard, Part.map_some]

theorem findAll_eq (h : s.Unfolds t) (p : Entry → Bool) :
    s.findAll t.label p = Part.some (t.descendants.filter fun i => (s.get? i).any p) := by
  rw [findAll, walk_eq h, callEach_collect, Part.map_some]
  rfl

/-- On the tree that a store unfolds to, the walk over trees visits the same nodes and has the same
answer. -/
theorem walk_eq_walk (h : s.Unfolds t) (f : Nat → Option β) :
    s.walk (fun j seen => (f j, seen ++ [j])) t.label []
      = Part.some ((Rose.walk (fun u => f u.label) t.children).2,
        (Rose.walk (fun u => f u.label) t.children).1.map Rose.label) := by
  have noted := callEach_image (fun (u : Rose Nat) seen => (f u.label, seen ++ [u]))
    (fun u seen => (f u.label, seen ++ [u.label])) (List.map Rose.label) (fun u seen => by simp)
    (Rose.subtreesAll t.children) []
  rw [Rose.walk_eq, List.map_nil, List.nil_append] at noted
  rw [walk_eq h, Rose.descendants, ← Rose.map_label_subtreesAll, callEach_congr, noted]

/-! ## 4. Stores that are forests -/

/-- The node lists the other one as a child. -/
def IsChild (s : Slots Entry) (i j : Nat) : Prop := ∃ e, s.get? i = some e ∧ j ∈ e.children

/-- All children are stored, none is listed twice, and no node lies under itself. -/
structure IsForest (s : Slots Entry) : Prop where
  closed : ∀ i j, s.IsChild i j → j < s.size
  once : (s.values.flatMap Entry.children).Nodup
  acyclic : ∀ i, ¬Relation.TransGen s.IsChild i i

theorem Unfolds.isChild_iff (h : s.Unfolds t) :
    s.IsChild t.label j ↔ j ∈ t.children.map Rose.label := by
  obtain ⟨i, ts⟩ := t
  obtain ⟨⟨e, stored, children⟩, -⟩ := h
  rw [Rose.label, Rose.children, ← children]
  constructor
  · rintro ⟨e', stored', listed⟩
    rwa [Option.some.inj (stored.symm.trans stored')]
  · exact fun listed => ⟨e, stored, listed⟩

theorem Unfolds.child (h : s.Unfolds t) (hc : c ∈ t.children) : s.Unfolds c := by
  obtain ⟨i, ts⟩ := t
  exact unfoldsAll_iff.mp h.2 c hc

/-- What stands in the tree is what can be reached from its root. -/
theorem Unfolds.mem_preorder_iff (h : s.Unfolds t) :
    j ∈ t.preorder ↔ Relation.ReflTransGen s.IsChild t.label j := by
  induction t using Rose.byChildren with
  | node i ts ih =>
    rw [Relation.ReflTransGen.cases_head_iff, Rose.preorder, List.mem_cons,
      Rose.preorderAll_eq_flatMap, List.mem_flatMap]
    refine or_congr eq_comm ⟨?_, ?_⟩
    · rintro ⟨c, hc, mem⟩
      exact ⟨c.label, h.isChild_iff.mpr (List.mem_map_of_mem hc), (ih c hc (h.child hc)).mp mem⟩
    · rintro ⟨k, listed, reached⟩
      obtain ⟨c, hc, rfl⟩ := List.mem_map.mp (h.isChild_iff.mp listed)
      exact ⟨c, hc, (ih c hc (h.child hc)).mpr reached⟩

theorem Unfolds.mem_descendants_iff (h : s.Unfolds t) :
    j ∈ t.descendants ↔ Relation.TransGen s.IsChild t.label j := by
  rw [Relation.TransGen.head'_iff, Rose.descendants, Rose.preorderAll_eq_flatMap, List.mem_flatMap]
  constructor
  · rintro ⟨c, hc, mem⟩
    have child := h.isChild_iff.mpr (List.mem_map_of_mem hc)
    exact ⟨c.label, child, (h.child hc).mem_preorder_iff.mp mem⟩
  · rintro ⟨k, listed, reached⟩
    obtain ⟨c, hc, rfl⟩ := List.mem_map.mp (h.isChild_iff.mp listed)
    exact ⟨c, hc, (h.child hc).mem_preorder_iff.mpr reached⟩

namespace IsForest

/-- From each of its indices, a forest unfolds to a tree. -/
theorem exists_unfolds (h : s.IsForest) (inside : i < s.size) : ∃ t, s.Unfolds t ∧ t.label = i := by
  -- There are finitely many indices and no cycles, so going from child to child comes to an end.
  let below (a b : Fin s.size) : Prop := Relation.TransGen s.IsChild b a
  have : IsTrans _ below := ⟨fun _ _ _ ab bc => bc.trans ab⟩
  have : Std.Irrefl below := ⟨fun a => h.acyclic a⟩
  have ends : WellFounded below := Finite.wellFounded_of_trans_of_irrefl below
  suffices ∀ a : Fin s.size, ∃ t, s.Unfolds t ∧ t.label = a from this ⟨i, inside⟩
  intro a
  induction a using ends.induction with
  | _ a ih =>
    have stored : s.get? a = some s.values[a] := List.getElem?_eq_getElem a.isLt
    have each : ∀ j ∈ s.values[a].children, ∃ t, s.Unfolds t ∧ t.label = j := by
      intro j listed
      have child : s.IsChild a j := ⟨_, stored, listed⟩
      exact ih ⟨j, h.closed a j child⟩ (.single child)
    have : Nonempty (Rose Nat) := ⟨.node a []⟩
    choose! tree unfolds label using each
    refine ⟨.node a (s.values[a].children.map tree), ⟨⟨_, stored, ?_⟩, ?_⟩, rfl⟩
    · rw [List.map_map]
      exact (List.map_id _).symm.trans (List.map_congr_left fun j hj => (label j hj).symm)
    · exact unfoldsAll_iff.mpr (List.forall_mem_map.mpr unfolds)

theorem children_nodup (h : s.IsForest) {e : Entry} (stored : s.get? i = some e) :
    e.children.Nodup :=
  (List.nodup_flatMap.mp h.once).1 e (List.mem_of_getElem? stored)

/-- No two nodes list the same child. -/
theorem parent_unique (h : s.IsForest) : Relator.LeftUnique s.IsChild := by
  have apart := List.pairwise_iff_getElem.mp (List.nodup_flatMap.mp h.once).2
  rintro i k j ⟨e, stored, listed⟩ ⟨e', stored', listed'⟩
  obtain ⟨hi, rfl⟩ := List.getElem?_eq_some_iff.mp stored
  obtain ⟨hk, rfl⟩ := List.getElem?_eq_some_iff.mp stored'
  rcases Nat.lt_trichotomy i k with less | same | greater
  · exact absurd listed' (apart i k hi hk less listed)
  · exact same
  · exact absurd listed (apart k i hk hi greater listed')

/-- What lies under two children of one node does not overlap. -/
theorem child_eq (h : s.IsForest) {a b : Nat} (ha : s.IsChild i a) (hb : s.IsChild i b)
    (ja : Relation.ReflTransGen s.IsChild a j) (jb : Relation.ReflTransGen s.IsChild b j) :
    a = b := by
  -- Going up from the common node, one of the two is met first, and from there the other.
  have unique : Relator.RightUnique (Function.swap s.IsChild) :=
    fun _ _ _ hc hd => h.parent_unique hc hd
  have climb {c d : Nat} (hc : s.IsChild i c) (hd : s.IsChild i d)
      (reached : Relation.ReflTransGen s.IsChild c d) : c = d := by
    rcases Relation.ReflTransGen.cases_tail reached with same | ⟨k, upTo, last⟩
    · exact same.symm
    · obtain rfl : k = i := h.parent_unique last hd
      exact absurd (.head' hc upTo) (h.acyclic k)
  rcases Relation.ReflTransGen.total_of_right_unique unique (Relation.reflTransGen_swap.mpr ja)
    (Relation.reflTransGen_swap.mpr jb) with up | up
  · exact (climb hb ha (Relation.reflTransGen_swap.mp up)).symm
  · exact climb ha hb (Relation.reflTransGen_swap.mp up)

/-- No index comes twice in a tree. -/
theorem nodup_preorder (h : s.IsForest) (unfolds : s.Unfolds t) : t.preorder.Nodup := by
  induction t using Rose.byChildren with
  | node i ts ih =>
    obtain ⟨e, stored, children⟩ := unfolds.1
    rw [Rose.preorder, List.nodup_cons]
    constructor
    · intro again
      exact h.acyclic i (unfolds.mem_descendants_iff.mp again)
    · rw [Rose.preorderAll_eq_flatMap, List.nodup_flatMap]
      refine ⟨fun c hc => ih c hc (unfolds.child hc), ?_⟩
      have apart : (ts.map Rose.label).Nodup := children ▸ h.children_nodup stored
      refine (List.pairwise_map.mp apart).imp_of_mem fun {c d} hc hd different => ?_
      intro j inC inD
      have child {u : Rose Nat} (hu : u ∈ ts) : s.IsChild i u.label :=
        unfolds.isChild_iff.mpr (List.mem_map_of_mem hu)
      exact different (h.child_eq (child hc) (child hd) ((unfolds.child hc).mem_preorder_iff.mp inC)
        ((unfolds.child hd).mem_preorder_iff.mp inD))

end IsForest

/-- A store that is one tree, as the builder makes it, is a forest. -/
theorem IsTree.isForest (h : s.IsTree t) : s.IsForest := by
  have less {i j : Nat} (child : s.IsChild i j) : j < i ∧ i < s.size := by
    obtain ⟨e, stored, listed⟩ := child
    exact ⟨(h.children_of_entry stored).2 j listed, (List.getElem?_eq_some_iff.mp stored).1⟩
  refine ⟨fun i j child => ?_, ?_, fun i cycle => ?_⟩
  · obtain ⟨lower, inside⟩ := less child
    exact lower.trans inside
  · rw [List.nodup_flatMap]
    constructor
    · intro e he
      obtain ⟨i, stored⟩ := List.getElem?_of_mem he
      exact (h.children_of_entry stored).1.imp (fun less => less.ne)
    · refine List.pairwise_iff_getElem.mpr fun i k hi hk lower j listed listed' => ?_
      have stored : s.get? i = some s.values[i] := List.getElem?_eq_getElem hi
      have stored' : s.get? k = some s.values[k] := List.getElem?_eq_getElem hk
      have inside : j < s.values.length := ((h.children_of_entry stored).2 j listed).trans hi
      have here : s.get? j = some s.values[j] := List.getElem?_eq_getElem inside
      have above := h.parent_of_mem here stored listed
      have above' := h.parent_of_mem here stored' listed'
      exact absurd (Option.some.inj (above.symm.trans above')) lower.ne
  · have down : ∀ j, Relation.TransGen s.IsChild i j → j < i := by
      intro j reached
      induction reached with
      | single child => exact (less child).1
      | tail _ child ih => exact (less child).1.trans ih
    exact absurd (down i cycle) (Nat.lt_irrefl i)

end Slots

/-! ## 5. Texts -/

/-- Tokens and literals are the leaves. -/
theorem TreeGrammar.HasForm.isLeaf_eq {n : Node} (h : HasForm n) :
    n.label.isLeaf = (n.label.kind.isToken || n.label.kind == .literal) := by
  have composite {k : Kind} {l : Language Node} (is : IsComposite k l n) : n.label.isLeaf = false :=
    is.inner
  have line (is : IsLine n) : n.label.isLeaf = false := by
    obtain ⟨inner⟩ := is
    simp only [Label.isLine, Bool.and_eq_true, Bool.not_eq_true'] at inner
    exact inner.1
  unfold HasForm at h
  cases kind : n.label.kind <;> simp only [kind] at h
  all_goals first
    | exact h.leaf.trans (by decide)
    | exact (line h).trans (by decide)
    | exact (composite h).trans (by decide)
    | exact (h.elim composite composite).trans (by decide)

namespace Node

/-- Starts never fall from a node to a later one, and lie between the ends of the whole. -/
structure InOrder (start stop : Location) (ls : List Label) : Prop where
  sorted : ls.Pairwise fun l m => l.extent.start.offset ≤ m.extent.start.offset
  within : ∀ l ∈ ls, start.offset ≤ l.extent.start.offset ∧ l.extent.start.offset ≤ stop.offset

theorem Tile.inOrder {start stop : Location} {ts : List Node} (h : Tile start stop ts)
    (sound : ∀ t ∈ ts, Sound t)
    (each : ∀ t ∈ ts, InOrder t.label.extent.start t.label.extent.stop t.preorder) :
    InOrder start stop (Rose.preorderAll ts) := by
  induction ts generalizing start with
  | nil => exact ⟨.nil, by simp [Rose.preorderAll]⟩
  | cons t ts ih =>
    obtain ⟨first, sound⟩ := List.forall_mem_cons.mp sound
    obtain ⟨own, each⟩ := List.forall_mem_cons.mp each
    obtain ⟨rfl, tile⟩ := h
    have later := ih tile sound each
    have wide := first.start_le_stop
    have rest := (tile.inside fun u hu => (sound u hu).start_le_stop).1
    rw [Rose.preorderAll]
    refine ⟨List.pairwise_append.mpr ⟨own.sorted, later.sorted, fun l hl m hm => ?_⟩,
      List.forall_mem_append.mpr ⟨fun l hl => ?_, fun l hl => ?_⟩⟩
    · exact (own.within l hl).2.trans (later.within m hm).1
    · exact ⟨(own.within l hl).1, (own.within l hl).2.trans rest⟩
    · exact ⟨wide.trans (later.within l hl).1, (later.within l hl).2⟩

theorem Sound.inOrder {t : Node} (h : t.Sound) :
    InOrder t.label.extent.start t.label.extent.stop t.preorder := by
  have wide := h.start_le_stop
  induction h with
  | leaf =>
    rw [Rose.preorder, Rose.preorderAll]
    exact ⟨List.pairwise_singleton _ _, by simpa using ⟨Nat.le_refl _, wide⟩⟩
  | composite text missing tile parts ih =>
    have under := tile.inOrder parts fun t ht => ih t ht (parts t ht).start_le_stop
    rw [Rose.preorder]
    refine ⟨List.pairwise_cons.mpr ⟨fun l hl => (under.within l hl).1, under.sorted⟩,
      List.forall_mem_cons.mpr ⟨⟨Nat.le_refl _, wide⟩, under.within⟩⟩

/-- The leaves under a node, in document order. -/
def leaves (t : Node) : List Node := t.subtrees.filter (·.label.isLeaf)

theorem Fill.leaves {start stop : Location} {cs : List Char} {ts : List Node}
    (h : Fill start stop cs ts)
    (each : ∀ t ∈ ts, Fill t.label.extent.start t.label.extent.stop t.source t.leaves) :
    Fill start stop cs ((Rose.subtreesAll ts).filter (·.label.isLeaf)) := by
  obtain ⟨tile, sound, rfl⟩ := h
  induction ts generalizing start with
  | nil =>
    obtain rfl : start = stop := tile
    exact .nil start
  | cons t ts ih =>
    obtain ⟨rfl, tile⟩ := tile
    obtain ⟨own, each⟩ := List.forall_mem_cons.mp each
    rw [Rose.subtreesAll, List.filter_append, List.flatMap_cons]
    exact own.append (ih each tile (List.forall_mem_cons.mp sound).2)

/-- The leaves lie side by side, from one end of the node to the other, and are its text. -/
theorem Sound.fill_leaves {t : Node} (h : t.Sound) :
    Fill t.label.extent.start t.label.extent.stop t.source t.leaves := by
  induction h with
  | @leaf l cs text offset units missing =>
    have leaf : (Rose.node l [] : Node).label.isLeaf = true := by
      simp [Rose.label, Label.isLeaf, text]
    rw [Node.leaves, Rose.subtrees, Rose.subtreesAll, List.filter_cons, if_pos leaf]
    exact .single (.leaf text offset units missing)
  | @composite l ts text missing tile parts ih =>
    have inner : ¬(Rose.node l ts : Node).label.isLeaf = true := by
      simp [Rose.label, Label.isLeaf, text]
    rw [Node.leaves, Rose.subtrees, List.filter_cons, if_neg inner]
    have whole : ts.flatMap Node.source = Node.source (.node l ts) := by rw [source_node, text]; rfl
    exact Fill.leaves ⟨tile, parts, whole⟩ ih

theorem map_label_leaves (t : Node) : t.leaves.map Rose.label = t.preorder.filter Label.isLeaf := by
  rw [leaves, ← Rose.map_label_subtrees, List.filter_map]
  rfl

/-- What is stored at the index is what the label says. -/
def Keeps (s : Slots Entry) (l : Label) (i : Nat) : Prop :=
  ∃ children parent, s.get? i = some (l.entry children parent)

mutual
/-- The indices of a tree, in document order, keep its labels. -/
theorem keeps_entries (front tail : List Entry) (parent : Option Nat) (t : Node) :
    List.Forall₂ (Keeps ⟨front ++ t.entries front.length parent ++ tail⟩) t.preorder
      (t.indices front.length).preorder := by
  cases t with
  | node l ts =>
    have children := keeps_entriesAll front
      ([l.entry (roots front.length ts) parent] ++ tail) (some (front.length + Rose.sizeAll ts)) ts
    refine .cons ⟨_, _, getElem?_rootAt front tail parent l ts⟩ ?_
    rw [entries]
    simpa only [List.append_assoc] using children

theorem keeps_entriesAll (front tail : List Entry) (parent : Option Nat) (ts : List Node) :
    List.Forall₂ (Keeps ⟨front ++ entriesAll front.length parent ts ++ tail⟩)
      (Rose.preorderAll ts) (Rose.preorderAll (indicesAll front.length ts)) := by
  cases ts with
  | nil => exact .nil
  | cons t ts =>
    have first := keeps_entries front
      (entriesAll (front.length + t.size) parent ts ++ tail) parent t
    have later := keeps_entriesAll (front ++ t.entries front.length parent) tail parent ts
    rw [List.length_append, length_entries] at later
    rw [entriesAll, indicesAll, Rose.preorderAll, Rose.preorderAll]
    exact List.rel_append (by simpa only [List.append_assoc] using first)
      (by simpa only [List.append_assoc] using later)
end

theorem keeps_preorder (t : Node) :
    List.Forall₂ (Keeps ⟨t.entries 0 none⟩) t.preorder (t.indices 0).preorder := by
  have all := t.keeps_entries [] [] none
  rwa [List.nil_append, List.append_nil] at all

end Node

section

variable (variant : Variant) (text : List Char)

/-- The kinds of the leaves of a file are those that a search for leaves looks for. -/
theorem isLeaf_of_text : ∀ l ∈ (SourceFile.ofText variant text).root.preorder,
    l.isLeaf = (l.kind.isToken || l.kind == .literal) := by
  intro l hl
  rw [← Rose.map_label_subtrees, List.mem_map] at hl
  obtain ⟨n, hn, rfl⟩ := hl
  exact (TreeGrammar.formed_file (isFile_root variant text) n hn).isLeaf_eq

/-- What the walk finds as leaves are the leaves of the tree. -/
theorem leaves_of_text :
    let root := (SourceFile.ofText variant text).root
    let nodes : Slots Entry := ⟨root.entries 0 none⟩
    ∃ found, nodes.leaves (root.rootAt 0) = Part.some found
      ∧ List.Forall₂ (Node.Keeps nodes) (root.leaves.map Rose.label) found := by
  intro root nodes
  have unfolds : nodes.Unfolds (root.indices 0) := root.isTree_entries.holds.unfolds
  have found := Slots.findAll_eq unfolds fun e => e.kind.isToken || e.kind == .literal
  rw [root.label_indices 0] at found
  refine ⟨_, found, ?_⟩
  -- The root is no leaf, so it makes no difference that the walk does not visit it.
  have top : root.preorder.filter Label.isLeaf = root.descendants.filter Label.isLeaf := rfl
  rw [root.map_label_leaves, top]
  have kept : List.Forall₂ (Node.Keeps nodes) root.descendants (root.indices 0).descendants :=
    (List.forall₂_cons.mp root.keeps_preorder).2
  have leaf : ∀ l ∈ root.descendants, l.isLeaf = (l.kind.isToken || l.kind == .literal) :=
    fun l hl => isLeaf_of_text variant text l (List.mem_cons_of_mem _ hl)
  have both := (List.forall₂_and_left _ _).mpr ⟨leaf, kept⟩
  refine (List.rel_filter ?_ both).imp fun _ _ h => h.2
  rintro l i ⟨kind, children, parent, stored⟩
  simp only [kind, stored, Option.any_some]
  rfl

end

/-- A walk with a stack is the walk in pre-order. Let a store list no child twice and no node under
itself. Then it unfolds from any index to a tree, in which no index comes twice; and what lies under
the index is what can be reached from it going down. On these the callback is called in pre-order,
up to the first call that answers, and that is the answer; without one it is called on all of them,
and there is no answer. So a search finds the first one that passes the test, and a search for all
of them finds them in order. The walk over trees makes the same calls.

What is stored of a text is such a store, and its tree of indices is the tree of the file. There the
order of the walk is that of the text: starts never fall, and the leaves that are found lie side by
side and are the text. -/
theorem walk_in_preorder :
    (∀ (s : Slots Entry) (i : Nat), s.IsForest → i < s.size →
      ∃ t, s.Unfolds t ∧ t.label = i ∧ t.preorder.Nodup
        ∧ (∀ j, j ∈ t.descendants ↔ Relation.TransGen s.IsChild i j)
        ∧ s.childrenOf i = some (t.children.map Rose.label)
        ∧ (∀ {σ β : Type} (f : Nat → σ → Option β × σ) (st : σ),
          (∃ front j back mid answer last, t.descendants = front ++ j :: back
            ∧ Silent f front st mid ∧ f j mid = (some answer, last)
            ∧ s.walk f i st = Part.some (some answer, last))
          ∨ ∃ last, Silent f t.descendants st last
            ∧ s.walk f i st = Part.some (none, last))
        ∧ (∀ p, s.find? i p = Part.some (t.descendants.find? fun j => (s.get? j).any p))
        ∧ (∀ p, s.findAll i p
          = Part.some (t.descendants.filter fun j => (s.get? j).any p))
        ∧ ∀ {β : Type} (f : Nat → Option β),
          let walked := Rose.walk (fun u => f u.label) t.children
          s.walk (fun j seen => (f j, seen ++ [j])) i []
            = Part.some (walked.2, walked.1.map Rose.label))
      ∧ ∀ (variant : Variant) (text : List Char),
        let root := (SourceFile.ofText variant text).root
        let nodes : Slots Entry := ⟨root.entries 0 none⟩
        nodes.IsForest ∧ nodes.Unfolds (root.indices 0) ∧ (root.indices 0).label = root.rootAt 0
          ∧ List.Forall₂ (Node.Keeps nodes) root.preorder (root.indices 0).preorder
          ∧ root.preorder.Pairwise (fun l m => l.extent.start.offset ≤ m.extent.start.offset)
          ∧ (∃ found, nodes.leaves (root.rootAt 0) = Part.some found
            ∧ List.Forall₂ (Node.Keeps nodes) (root.leaves.map Rose.label) found)
          ∧ Node.Fill .origin root.label.extent.stop text root.leaves
          ∧ (byteLength text < wordBound → root.size ≤ wordBound →
            ∃ b, build text = Part.some (.ok (root.rootAt 0, b)) ∧ b.nodes = nodes) := by
  constructor
  · intro s i forest inside
    obtain ⟨t, unfolds, rfl⟩ := forest.exists_unfolds inside
    refine ⟨t, unfolds, rfl, forest.nodup_preorder unfolds, fun j => unfolds.mem_descendants_iff,
      Slots.childrenOf_eq unfolds, fun f st => ?_, Slots.find?_eq unfolds, Slots.findAll_eq unfolds,
      fun f => ?_⟩
    · rw [Slots.walk_eq unfolds]
      rcases callEach_cases f t.descendants st with
        ⟨front, j, back, mid, answer, last, split, silent, call, all⟩ | ⟨last, silent, all⟩
      · exact .inl ⟨front, j, back, mid, answer, last, split, silent, call, congrArg Part.some all⟩
      · exact .inr ⟨last, silent, congrArg Part.some all⟩
    · exact Slots.walk_eq_walk unfolds f
  · intro variant text root nodes
    have isTree : nodes.IsTree (root.indices 0) := root.isTree_entries
    have sound : root.Sound := sound_root variant text
    have leaves := sound.fill_leaves
    have start : root.label.extent.start = .origin := rfl
    have source : root.source = text := source_root variant text
    rw [start, source] at leaves
    refine ⟨isTree.isForest, isTree.holds.unfolds, root.label_indices 0, root.keeps_preorder,
      sound.inOrder.sorted, leaves_of_text variant text, leaves, fun short few => ?_⟩
    obtain ⟨b, built, values, -⟩ := exists_build variant text short few
    exact ⟨b, built, congrArg Slots.mk values⟩

end OffsideMarkup
