/-
OffsideMarkup.Proofs.LineTree — where the lines of a file are in its tree.

In the tree of a file a line is a composite node of one of the six line kinds, and its parent is the
file or an element. `Node.lineParents` reads this off any tree of nodes; `Line.parents` says the
same of nested lines. That the two agree (`lineParents_root`) comes down to what is no line: a
declaration, a chain, a template, a hole and everything in them (`Lineless`).
-/
import OffsideMarkup.Proofs.NodeLabels

namespace OffsideMarkup

/-! ## 1. Parents -/

/-- A node that is a line. -/
def Label.isLine (l : Label) : Bool := !l.isLeaf && l.kind.isLine

/-- The lines of a tree in document order: the number of each, with the kind of its parent and the
line where the parent starts. -/
def Node.lineParents (n : Node) : List (Nat × Option (Kind × Nat)) :=
  ((n.withAncestors []).filter fun x => x.2.isLine).map fun (above, l) =>
    (l.extent.start.line, above.head?.map fun p => (p.kind, p.extent.start.line))

mutual
/-- Each line of a nested line with the number of the element it is nested in. -/
def Line.parents (owner : Option Nat) : Line → List (Nat × Option Nat)
  | .simple f _ => [(f.start.line, owner)]
  | .element f _ ls => (f.start.line, owner) :: Line.parentsOf (some f.start.line) ls

def Line.parentsOf (owner : Option Nat) : List Line → List (Nat × Option Nat)
  | [] => []
  | l :: ls => l.parents owner ++ Line.parentsOf owner ls
end

/-- The node that an owner is: an element by its line, or the file. -/
def ownerNode : Option Nat → Kind × Nat
  | none => (.file, 0)
  | some number => (.element, number)

/-! ## 2. What is no line -/

theorem Rose.withAncestorsAll_append {α : Type} (above : List α) (ts us : List (Rose α)) :
    Rose.withAncestorsAll above (ts ++ us)
      = Rose.withAncestorsAll above ts ++ Rose.withAncestorsAll above us := by
  induction ts with
  | nil => rfl
  | cons t ts ih => rw [List.cons_append, Rose.withAncestorsAll, ih, ← List.append_assoc]; rfl

mutual
theorem Rose.map_snd_withAncestors {α : Type} (above : List α) (t : Rose α) :
    (t.withAncestors above).map Prod.snd = t.preorder := by
  cases t with
  | node a ts =>
    rw [withAncestors, List.map_cons, map_snd_withAncestorsAll, preorder]

theorem Rose.map_snd_withAncestorsAll {α : Type} (above : List α) (ts : List (Rose α)) :
    (withAncestorsAll above ts).map Prod.snd = preorderAll ts := by
  cases ts with
  | nil => rfl
  | cons t ts =>
    rw [withAncestorsAll, List.map_append, map_snd_withAncestors, map_snd_withAncestorsAll,
      preorderAll]
end

theorem Rose.mem_preorderAll_of_withAncestorsAll {α : Type} {above : List α} (ts : List (Rose α)) :
    ∀ x ∈ Rose.withAncestorsAll above ts, x.2 ∈ Rose.preorderAll ts := by
  intro x hx
  rw [← map_snd_withAncestorsAll above]
  exact List.mem_map_of_mem hx

/-- There is no line among these nodes and what lies under them. -/
def Lineless (ts : List Node) : Prop := ∀ l ∈ Rose.preorderAll ts, l.isLine = false

/-- Leaves and the parts of lines are no lines. -/
theorem kept_isLine : Kept fun l => l.isLine = false where
  leaf _ _ := rfl
  part other _ _ _ := other

namespace Lineless

variable {ts us : List Node}

theorem leaf (l : Leaf) (role : Role) : Lineless [l.node role] := Everywhere.leaf kept_isLine l role

theorem tag (t : Tag) : Lineless [t.node] := Everywhere.tag kept_isLine t

theorem body (b : Body) : Lineless b.nodes := Everywhere.body kept_isLine b

theorem around (h : Lineless ts) (f : Frame) : Lineless (f.around ts) :=
  Everywhere.around kept_isLine h f

end Lineless

/-! ## 3. Lines in the tree -/

/-- The lines among nodes that stand under others, with their parents. -/
def linesUnder (above : List Label) (ts : List Node) : List (Nat × Option (Kind × Nat)) :=
  ((Rose.withAncestorsAll above ts).filter fun x => x.2.isLine).map fun (above, l) =>
    (l.extent.start.line, above.head?.map fun p => (p.kind, p.extent.start.line))

theorem linesUnder_append (above : List Label) (ts us : List Node) :
    linesUnder above (ts ++ us) = linesUnder above ts ++ linesUnder above us := by
  rw [linesUnder, Rose.withAncestorsAll_append, List.filter_append, List.map_append]
  rfl

theorem Lineless.linesUnder {ts : List Node} (h : Lineless ts) (above : List Label) :
    linesUnder above ts = [] := by
  have none : (Rose.withAncestorsAll above ts).filter (fun x => x.2.isLine) = [] := by
    rw [List.filter_eq_nil_iff]
    intro x hx
    rw [h x.2 (Rose.mem_preorderAll_of_withAncestorsAll ts x hx)]
    exact Bool.false_ne_true
  rw [OffsideMarkup.linesUnder, none]
  rfl

/-- A line among others, with the lines in it. -/
theorem linesUnder_compose {kind : Kind} (line : kind.isLine = true) (above : List Label)
    (start : Location) (ts : List Node) (level : Option Nat) (us : List Node) :
    linesUnder above (Node.compose kind start ts level :: us) =
      (start.line, above.head?.map fun p => (p.kind, p.extent.start.line))
        :: linesUnder ((Node.compose kind start ts level).label :: above) ts
        ++ linesUnder above us := by
  have here : (Node.compose kind start ts level).label.isLine = true := line
  rw [linesUnder, Rose.withAncestorsAll, Node.compose, Rose.withAncestors, List.cons_append,
    List.filter_cons_of_pos (by exact here), List.map_cons, List.filter_append, List.map_append]
  rfl

theorem Body.isLine_kind (b : Body) : b.kind.isLine = true := by cases b <;> rfl

/-- The lines of nested lines have the parents that the nesting says. -/
theorem linesUnder_nodesOf (ls : List Line) (owner : Option Nat) (p : Label) (above : List Label)
    (place : (p.kind, p.extent.start.line) = ownerNode owner) :
    linesUnder (p :: above) (Line.nodesOf ls)
      = (Line.parentsOf owner ls).map fun (number, o) => (number, some (ownerNode o)) := by
  match ls with
  | [] => rfl
  | .simple f b :: ls =>
    have later := linesUnder_nodesOf ls owner p above place
    rw [Line.nodesOf, Line.node, linesUnder_compose b.isLine_kind, later,
      ((Lineless.body b).around f).linesUnder, Line.parentsOf, Line.parents, List.head?_cons,
      Option.map_some, place]
    rfl
  | .element f t inner :: ls =>
    have later := linesUnder_nodesOf ls owner p above place
    have under := linesUnder_nodesOf inner (some f.start.line)
      (Node.compose .element f.start (f.around [t.node] ++ Line.nodesOf inner) (some f.level)).label
      (p :: above) rfl
    rw [Line.nodesOf, Line.node, linesUnder_compose rfl, later, linesUnder_append,
      ((Lineless.tag t).around f).linesUnder, List.nil_append, under, Line.parentsOf, Line.parents,
      List.head?_cons, Option.map_some, place, List.map_append, List.map_cons]
termination_by sizeOf ls

/-- The lines in the tree of a file have the parents that the nesting says. -/
theorem lineParents_root (file : SourceFile) :
    file.root.lineParents
      = (Line.parentsOf none file.lines).map fun (number, o) => (number, some (ownerNode o)) := by
  have under := linesUnder_nodesOf file.lines none file.root.label [] rfl
  have ending := (Lineless.leaf file.endOfFile .part).linesUnder [file.root.label]
  have whole : file.root.lineParents
      = linesUnder [file.root.label] (Line.nodesOf file.lines ++ [file.endOfFile.node .part]) := rfl
  rw [whole, linesUnder_append, under, ending, List.append_nil]

/-! ## 4. The lines themselves -/

mutual
/-- A line and the lines nested in it, in document order. -/
def Line.within : Line → List Line
  | .simple f b => [.simple f b]
  | .element f t ls => .element f t ls :: Line.withinAll ls

def Line.withinAll : List Line → List Line
  | [] => []
  | l :: ls => l.within ++ Line.withinAll ls
end

theorem Line.nodesOf_eq_map (ls : List Line) : Line.nodesOf ls = ls.map Line.node := by
  induction ls with
  | nil => rfl
  | cons l ls ih => rw [Line.nodesOf, ih, List.map_cons]

theorem Lineless.isLine_eq_false {ts : List Node} (h : Lineless ts) {n : Node}
    (hn : n ∈ Rose.subtreesAll ts) : n.label.isLine = false := by
  refine h n.label ?_
  rw [← Rose.map_label_subtreesAll]
  exact List.mem_map_of_mem hn

theorem Rose.subtreesAll_append {α : Type} (ts us : List (Rose α)) :
    Rose.subtreesAll (ts ++ us) = Rose.subtreesAll ts ++ Rose.subtreesAll us := by
  induction ts with
  | nil => rfl
  | cons t ts ih => rw [List.cons_append, Rose.subtreesAll, ih, ← List.append_assoc]; rfl

theorem Lineless.filter_isLine {ts : List Node} (h : Lineless ts) :
    (Rose.subtreesAll ts).filter (·.label.isLine) = [] := by
  refine List.filter_eq_nil_iff.mpr fun n hn => ?_
  rw [h.isLine_eq_false hn]
  exact Bool.false_ne_true

theorem filter_isLine_compose {kind : Kind} (line : kind.isLine = true) (start : Location)
    (ts : List Node) (level : Option Nat) :
    (Node.compose kind start ts level).subtrees.filter (·.label.isLine)
      = Node.compose kind start ts level :: (Rose.subtreesAll ts).filter (·.label.isLine) := by
  rw [Node.compose, Rose.subtrees]
  exact List.filter_cons_of_pos (p := fun n : Node => n.label.isLine) line

/-- The nodes that are lines are those of the nested lines, in the same order. -/
theorem filter_isLine_nodesOf (ls : List Line) :
    (Rose.subtreesAll (Line.nodesOf ls)).filter (·.label.isLine)
      = (Line.withinAll ls).map Line.node := by
  match ls with
  | [] => rfl
  | .simple f b :: ls =>
    have own := ((Lineless.body b).around f).filter_isLine
    have later := filter_isLine_nodesOf ls
    rw [Line.nodesOf, Rose.subtreesAll, List.filter_append, later, Line.node,
      filter_isLine_compose b.isLine_kind, own, Line.withinAll, Line.within, List.map_append,
      List.map_singleton, Line.node]
  | .element f t inner :: ls =>
    have own := ((Lineless.tag t).around f).filter_isLine
    have later := filter_isLine_nodesOf ls
    have under := filter_isLine_nodesOf inner
    rw [Line.nodesOf, Rose.subtreesAll, List.filter_append, later, Line.node,
      filter_isLine_compose rfl, Rose.subtreesAll_append, List.filter_append, own, under,
      Line.withinAll, Line.within, List.map_append, List.map_cons, Line.node]
    rfl
termination_by sizeOf ls

theorem filter_isLine_root (file : SourceFile) :
    file.root.subtrees.filter (·.label.isLine) = (Line.withinAll file.lines).map Line.node := by
  have ending := (Lineless.leaf file.endOfFile .part).filter_isLine
  rw [SourceFile.root, Node.compose, Rose.subtrees, List.filter_cons_of_neg Bool.false_ne_true,
    Rose.subtreesAll_append, List.filter_append, filter_isLine_nodesOf, ending, List.append_nil]

theorem node_mem_subtrees {file : SourceFile} {l : Line} (hl : l ∈ Line.withinAll file.lines) :
    l.node ∈ file.root.subtrees := by
  have mem := List.mem_map_of_mem (f := Line.node) hl
  rw [← filter_isLine_root] at mem
  exact (List.mem_filter.mp mem).1

theorem exists_line_in_file {file : SourceFile} {n : Node} (hn : n ∈ file.root.subtrees)
    (line : n.label.isLine = true) : ∃ l ∈ Line.withinAll file.lines, n = l.node := by
  have kept : n ∈ file.root.subtrees.filter (·.label.isLine) := List.mem_filter.mpr ⟨hn, line⟩
  rw [filter_isLine_root] at kept
  obtain ⟨l, hl, e⟩ := List.mem_map.mp kept
  exact ⟨l, hl, e.symm⟩

/-- If the last child of a line is a line, it is the last of those nested in it. -/
theorem exists_last_line {l : Line} {c : Node} (last : c ∈ l.node.children.getLast?)
    (line : c.label.isLine = true) : ∃ m ∈ l.children.getLast?, c = m.node := by
  have no_leaf : ∀ (f : Frame) (ts : List Node), c ∈ (f.around ts).getLast? → False := by
    intro f ts hc
    rw [Frame.around, List.getLast?_concat] at hc
    obtain rfl := Option.some.inj hc
    exact absurd line Bool.false_ne_true
  cases l with
  | simple f b =>
    rw [Line.node] at last
    exact absurd last (no_leaf f b.nodes)
  | element f t ls =>
    rw [Line.node] at last
    change c ∈ (f.around [t.node] ++ Line.nodesOf ls).getLast? at last
    rw [List.getLast?_append, Line.nodesOf_eq_map, List.getLast?_map] at last
    cases ls' : ls.getLast? with
    | none =>
      rw [ls'] at last
      exact absurd last (no_leaf f [t.node])
    | some m =>
      rw [ls'] at last
      refine ⟨m, ls', ?_⟩
      exact (Option.some.inj last).symm

end OffsideMarkup
